import RegisterBackend.Proofs.Routine
import RegisterBackend.Proofs.Inventory

/-!
Modules with one function that only computes with integers: the code of the function computes what
its operations mean.
-/
namespace RegisterBackend

open Gen CallLayout Option Ty Value

variable {m : Module} {c : Context} {decl other : Declaration}
  {divisor : Option Word} {hw : Hardware} {ty left right : Ty} {op : BinaryOp}
  {operation : Operation} {p : Placement}

namespace Module

def types (m : Module) (v : ValueId) : Ty := ((m.values.get? v).map Value.ty).getD .void

/-- The words that constants and parameters have before a function runs. -/
def environment (m : Module) (decl : Declaration) (arguments : List Word) (v : ValueId) : Word :=
  ((m.values.get? v).bind Value.constant?).getD (arguments.getD (decl.params.idxOf v) 0)

end Module

/-- Arithmetic on integers, comparisons, conversions and assignments. Binary operators have no
truth values as operands. -/
def Operation.IsArithmetic (types : ValueId → Ty) : Operation → Prop
  | .binary _ lhs rhs _ _ => (types lhs).isBool = false ∧ (types rhs).isBool = false
  | .compare .. | .unary .. | .convert .. | .assign .. => True
  | _ => False

instance (types : ValueId → Ty) (operation : Operation) :
    Decidable (operation.IsArithmetic types) := by
  cases operation <;> unfold Operation.IsArithmetic <;> infer_instance

/-- `decl` is the only function of the module; it returns `v` after the operations `items`, and
there are integers and truth values only, none of them static. -/
structure Module.IsArithmetic (m : Module) (decl : Declaration)
    (items : List BodyItem) (v : ValueId) (loc : Location) : Prop where
  only : m.functions = #[decl]
  internal : decl.isExternal = false
  ints : ∀ value ∈ m.values.values, value.ty.isPlain = true
  result : decl.signature.result.isPlain = true
  statics : m.statics.used = 0
  blobs : m.constants.blobs = #[]
  body : decl.body = some (items ++ [⟨.ret (some v), loc⟩])
  operations : ∀ item ∈ items, item.operation.IsArithmetic m.types

/-- The place has the word as a value of the type, in a frame that begins at `frame`. -/
def ArgumentPlace.Holds (frame : Word) (s : MachineState) (ty : Ty) (w : Word) :
    ArgumentPlace → Prop
  | .register r => s.registers r = w
  | .stack offset => s.memory.bytes (frame + BitVec.ofNat 64 offset) ty.size
      = (Word.bytes w).take ty.size

instance (frame : Word) (s : MachineState) (ty : Ty) (w : Word) (place : ArgumentPlace) :
    Decidable (place.Holds frame s ty w) := by
  cases place <;> unfold ArgumentPlace.Holds <;> infer_instance

/-- The arguments are where the convention puts them when a function starts. The return address
is just below the stack pointer, and with it the frame of the function begins. -/
def Declaration.Receives (decl : Declaration) (arguments : List Word) (sp : Word)
    (s : MachineState) : Prop :=
  arguments.length = decl.signature.params.length
    ∧ ∀ entry ∈ arguments.zip (decl.signature.params.zip decl.layout.arguments),
      entry.2.1.canonicalBits entry.1 = entry.1 ∧ entry.2.2.Holds (sp - 8) s entry.2.1 entry.1

instance (decl : Declaration) (arguments : List Word) (sp : Word) (s : MachineState) :
    Decidable (decl.Receives arguments sp s) := inferInstanceAs (Decidable (_ ∧ _))

theorem Ty.isBool_unqualified : (ty : Ty) → ty.unqualified.isBool = ty.isBool
  | .const t => isBool_unqualified t
  | .void | .bool | .int _ _ | .float _ | .pointer _ | .array _ _ | .struct .. | .function .. => rfl

theorem Ty.not_isBool_promoted (ty : Ty) : ty.promoted.isBool = false := by
  unfold promoted
  split
  · rfl
  · next integer => simpa [isBool_unqualified] using integer

theorem BinaryOp.result_cases (plain : left.isPlain = true) (plain' : right.isPlain = true)
    (legal : op.result left right divisor = .ok ty) :
    op.isShift = true ∧ ty = left ∨ op.isBitwise = true ∧ left.isBool = true
    ∧ right.isBool = true ∧ ty = .bool
      ∨ op.isShift = false ∧ ¬(op.isBitwise = true ∧ left.isBool = true ∧ right.isBool = true)
        ∧ ty = (left.wider right).promoted := by
  simp only [result, isScalar_of_isPlain plain, isScalar_of_isPlain plain',
    isFloat_of_isPlain plain, isFloat_of_isPlain plain', pointee?_of_isPlain plain,
      pointee?_of_isPlain plain', integerResult,
    Bool.not_true, Bool.or_self, bne_self_eq_false, Bool.false_eq_true, ↓reduceIte] at legal
  split at legal
  · cases legal
  · split at legal
    · next shifts =>
      cases legal
      exact .inl ⟨shifts, unqualified_of_isPlain plain⟩
    · next shifts =>
      split at legal
      · next both =>
        cases legal
        simp only [Bool.and_eq_true, and_assoc] at both
        exact .inr (.inl ⟨both.1, both.2.1, both.2.2, rfl⟩)
      · next other =>
        cases legal
        simp only [Bool.and_eq_true, and_assoc] at other
        exact .inr (.inr ⟨by simpa using shifts, other, rfl⟩)

theorem BinaryOp.isBool_of_result (plain : left.isPlain = true) (plain' : right.isPlain = true)
    (legal : op.result left right divisor = .ok ty) (truth : ty.isBool = true) :
    left.isBool = true := by
  obtain ⟨_, rfl⟩ | ⟨_, left_truth, _⟩ | ⟨_, _, rfl⟩ := result_cases plain plain' legal
  · exact truth
  · exact left_truth
  · simp [not_isBool_promoted] at truth

theorem UnaryOp.isBool_of_result {op : UnaryOp} {operand : Ty} (plain : operand.isPlain = true)
    (legal : op.result operand = .ok ty) : ty.isBool = decide (op = .logicalNot) := by
  cases op <;> simp only [result] at legal <;> split at legal <;> cases legal
  · next numeric => simp_all [unqualified_of_isPlain plain, isFloat_of_isPlain plain]
  · next numeric => simp_all [unqualified_of_isPlain plain]
  · rfl

theorem Operation.IsArithmetic.isNumeric {types : ValueId → Ty}
    (arithmetic : operation.IsArithmetic types) : operation.IsNumeric types := by
  cases operation with
  | binary op lhs rhs result inPlace => exact arithmetic.1
  | _ => trivial

namespace Module

theorem types_eq {v : ValueId} {value : Value} (found : m.values.get? v = some value) :
    m.types v = value.ty := by simp [types, found]

theorem Vets.isStraight {sig : Signature} (vets : m.Vets sig operation)
    (ints : ∀ {v value}, m.values.get? v = some value → value.ty.isPlain = true)
    (arithmetic : operation.IsArithmetic m.types) : operation.IsStraight m.context := by
  obtain ⟨b, made, admits, _, keeps⟩ := vets
  have read {w : ValueId} {value : Value} (reads : b.Reads w value) :
      ∃ value', m.values.get? w = some value' ∧ value'.ty = value.ty
        ∧ value'.kind = value.kind := by
    have gains : b.context.values.Gains (fun _ => True) (b.context.values.including made) :=
      .including _ fun _ => trivial
    obtain ⟨_, found, core⟩ := gains.kept reads.1
    obtain ⟨value', found', core'⟩ := keeps.values found
    have same := core'.trans core
    exact ⟨value', found', ty_of_core same, kind_of_core same⟩
  have plain {w : ValueId} {value : Value} (reads : b.Reads w value) : value.ty.isPlain = true := by
    obtain ⟨_, found, same, _⟩ := read reads
    exact same ▸ ints found
  have temporary {ty : Ty} {description : String}
      (is_made : made = some (.ofTemporary ty description)) :
      m.context.Temporary b.next ty := by
    have included : (b.context.values.including made).get? b.next
        = some (.ofTemporary ty description) := by
      rw [is_made, ValueStore.get?_including]
      exact if_pos rfl
    obtain ⟨value', found, core⟩ := keeps.values included
    exact ⟨value', found, kind_of_core core, ty_of_core core⟩
  cases admits with
  | @binary op lhs rhs left right ty reads reads' legal swap swapped =>
    have unswapped : swap = false := by simp [swapped, isPointer_of_isPlain (plain reads')]
    subst unswapped
    obtain ⟨value', found, same, _⟩ := read reads
    refine ⟨ty, value', found, fun truth => ?_, temporary rfl⟩
    rw [same]
    exact BinaryOp.isBool_of_result (plain reads) (plain reads') legal truth
  | @update op target rhs old right named ty reads reads' is_named mutable legal =>
    obtain ⟨value', found, same, kind⟩ := read reads
    refine ⟨value'.ty, value', found, id, rfl, value', found, ?_, rfl⟩
    simpa [isNamed, named?, kind] using isSome_iff_exists.mpr ⟨named, is_named⟩
  | compare reads reads' legal => exact ⟨.bool, rfl, temporary rfl⟩
  | @unary op operand value ty reads legal =>
    exact ⟨ty, UnaryOp.isBool_of_result (plain reads) legal, temporary rfl⟩
  | convert reads legal => exact ⟨_, temporary rfl⟩
  | assign found reads is_named mutable legal => trivial
  | _ => exact arithmetic.elim

end Module

theorem Hardware.read_of_bytes {w : Word} {m : Memory} {address : Word} (plain : ty.isPlain = true)
    (canonical : ty.canonicalBits w = w)
    (bytes : m.bytes address ty.size = (Word.bytes w).take ty.size) :
    hw.read ty m address = .word w := by
  have sized := registerSized_of_isPlain plain
  have bank := bank_of_isPlain plain
  have deposited : hw.deposit ty.bank w ty.size = (Word.bytes w).take ty.size := by rw [bank]; rfl
  have length : (hw.deposit ty.bank w ty.size).length = ty.size := length_deposit sized.le
  have written := m.bytes_write address (hw.deposit ty.bank w ty.size) (by have := sized.le; omega)
  rw [length, deposited, ← bytes] at written
  have stored := hw.read_deposit sized (by rwa [Canonical, bank]) m address
  rw [deposited, ← bytes] at stored
  rw [← stored, read_of_registerSized sized, read_of_registerSized sized,
    loaded_congr sized written]

theorem Declaration.stack_apart {v w : ValueId} {ty' : Ty} {offset offset' : Nat}
    (member : (v, ty, .stack offset) ∈ decl.parameters)
    (member' : (w, ty', .stack offset') ∈ decl.parameters) (different : v ≠ w) :
    offset + Convention.span ty ≤ offset' ∨ offset' + Convention.span ty' ≤ offset := by
  obtain ⟨i, at_i⟩ := List.mem_iff_getElem?.mp member
  obtain ⟨j, at_j⟩ := List.mem_iff_getElem?.mp member'
  rw [List.getElem?_zip_eq_some] at at_i at_j
  obtain ⟨small, is_i⟩ := List.getElem?_eq_some_iff.mp at_i.2
  obtain ⟨small', is_j⟩ := List.getElem?_eq_some_iff.mp at_j.2
  have pairwise : (decl.signature.params.zip decl.layout.arguments).Pairwise Convention.Apart :=
    arguments_apart _
  rw [List.pairwise_iff_getElem] at pairwise
  rcases Nat.lt_trichotomy i j with before | rfl | after
  · have ordered := pairwise i j small small' before
    rw [is_i, is_j] at ordered
    exact .inl ordered
  · exact absurd (mem_unique at_i.1 at_j.1) different
  · have ordered := pairwise j i small' small after
    rw [is_i, is_j] at ordered
    exact .inr ordered

theorem Ty.size_le_span (plain : ty.isPlain = true) : max ty.size 1 ≤ Convention.span ty := by
  have small := (registerSized_of_isPlain plain).le
  have same : Convention.passedSize ty = ty.size := Nat.mod_eq_of_lt (by omega)
  rw [Convention.span, same]
  exact le_alignUp _ (by simp [wordSize])

namespace Module.IsArithmetic
variable {items : List BodyItem} {v w : ValueId} {loc : Location}
  {opened : List FunctionId} {value : Value} {frame : FrameId} {arguments : List Word} {sp : Word}
  {s : MachineState} {place : ArgumentPlace}

section
variable (arithmetic : m.IsArithmetic decl items v loc)
include arithmetic

theorem known : m.function? ⟨0⟩ = some decl := by
  simp [Module.function?, arithmetic.only]

theorem eq_of_known {f : FunctionId}
    (known : m.function? f = some other) : f = ⟨0⟩ ∧ other = decl := by
  simp only [Module.function?, arithmetic.only, List.getElem?_toArray,
    List.getElem?_singleton] at known
  split at known
  · next first =>
    cases f
    exact ⟨congrArg _ first, (Option.some.inj known).symm⟩
  · cases known

theorem plain (found : m.values.get? w = some value) :
    value.ty.isPlain = true := arithmetic.ints value (Array.mem_of_getElem? found)

theorem returnPointer (orderly : m.Orderly opened []) : decl.returnPointer = none := by
  by_cases is_open : (⟨0⟩ : FunctionId) ∈ opened
  · obtain ⟨_, known, opens⟩ := orderly.known _ is_open
    obtain rfl := mem_unique arithmetic.known known
    simpa [Declaration.layout_result arithmetic.result] using opens.returns
  · exact (orderly.unopened arithmetic.known is_open).2

section
variable (vetted : m.Vetted) (orderly : m.Orderly opened [])
include vetted orderly

theorem home (is_frame : decl.frame = some frame)
    (found : m.values.get? w = some value) {home : Position} (is_home : value.home? = some home) :
    ∃ offset, home = .stack (.inFrame frame offset)
      ∧ (w, value.ty, .stack offset) ∈ decl.parameters := by
  obtain ⟨slot, rfl⟩ : ∃ slot, home = .stack slot := by
    have provided := orderly.provided found is_home
    cases home with
    | register r => exact provided.elim
    | stack slot => exact ⟨slot, rfl⟩
    | static offset =>
      have low : offset < m.statics.used := provided
      rw [arithmetic.statics] at low
      omega
    | constant id =>
      have low : id.index < m.constants.blobs.size := provided
      rw [arithmetic.blobs] at low
      simp at low
  obtain ⟨f, decl', ty, place, known', member⟩ := orderly.hosts found is_home
  obtain ⟨rfl, rfl⟩ := arithmetic.eq_of_known known'
  obtain ⟨_, found', rfl, _, homed⟩ := vetted.formals known' member
  obtain rfl := mem_unique found found'
  rw [Declaration.formals, arithmetic.returnPointer orderly, toList_none, List.map_nil,
    List.append_nil] at member
  have homed := is_home.symm.trans (homed is_frame)
  cases place with
  | register r => cases homed
  | stack offset => exact ⟨offset, Option.some.inj homed, member⟩

theorem argument (received : decl.Receives arguments sp s)
    (member : (w, ty, place) ∈ decl.parameters) : (m.environment decl arguments w, ty, place)
      ∈ arguments.zip (decl.signature.params.zip decl.layout.arguments) := by
  obtain ⟨value, found, _, is_named, _⟩ :=
    vetted.formals arithmetic.known (List.mem_append_left _ member)
  have unconstant : value.constant? = none := by
    cases kind : value.kind <;> simp_all [Value.constant?, isNamed, named?]
  obtain ⟨i, at_i⟩ := List.mem_iff_getElem?.mp member
  rw [List.getElem?_zip_eq_some] at at_i
  obtain ⟨small, rfl⟩ := List.getElem?_eq_some_iff.mp at_i.1
  have is_open : (⟨0⟩ : FunctionId) ∈ opened := by
    by_contra closed
    simp [(orderly.unopened arithmetic.known closed).1] at small
  obtain ⟨_, known, opens⟩ := orderly.known _ is_open
  obtain rfl := mem_unique arithmetic.known known
  have small' : i < arguments.length := received.1 ▸ opens.length ▸ small
  have index : decl.params.idxOf decl.params[i] = i := opens.distinct.idxOf_getElem i small
  refine List.mem_iff_getElem?.mpr ⟨i, List.getElem?_zip_eq_some.mpr ⟨?_, at_i.2⟩⟩
  simp [Module.environment, found, unconstant, index, small']

theorem tracks (is_frame : decl.frame = some frame) (received : decl.Receives arguments sp s)
    (at_frame : p.frame frame = sp - 8) (books : c.books = m.context.books) :
    Tracks hw p (fun v => .word (m.environment decl arguments v)) c.books s := by
  rw [books]
  -- What has a place in memory is a parameter that came on the stack.
  have placed {w : ValueId} {st : Standing} {pos : Position}
      (standing : m.context.books.standing w = some st)
        (here : st.position = some pos ∨ st.Owns pos) :
      ∃ offset, pos = .stack (.inFrame frame offset) ∧ st.ty.isPlain = true
        ∧ (w, st.ty, .stack offset) ∈ decl.parameters := by
    obtain ⟨value, found, rfl⟩ := map_eq_some_iff.mp standing
    have is_home : value.home? = some pos := by
      obtain here | ⟨here, _⟩ | home := here
      · exact (vetted.values found).position.symm.trans here
      · exact (vetted.values found).position.symm.trans here
      · exact home
    obtain ⟨offset, is_position, member⟩ := arithmetic.home vetted orderly is_frame found is_home
    exact ⟨offset, is_position, arithmetic.plain found, member⟩
  constructor
  case held =>
    intro r v occupied
    cases (m.occupant?_context r).symm.trans occupied
  case owned =>
    intro w st r standing pos
    obtain ⟨_, absurd, _⟩ := placed standing (.inl pos)
    cases absurd
  case canonical =>
    intro w st word standing positioned is_word
    cases is_word
    obtain ⟨pos, is_position⟩ := isSome_iff_exists.mp positioned
    obtain ⟨offset, _, plain, member⟩ := placed standing (.inl is_position)
    rw [Hardware.Canonical, bank_of_isPlain plain]
    exact (received.2 _ (arithmetic.argument vetted orderly received member)).1
  case located =>
    intro w st pos standing owns
    obtain ⟨offset, rfl, plain, member⟩ := placed standing (.inr owns)
    refine ⟨⟨.frame frame, offset⟩, rfl, ?_⟩
    have inside : offset + Convention.span st.ty ≤ decl.layout.argumentsEnd :=
      (stack_argument (List.of_mem_zip member).2).2.1
    have fits := Ty.size_le_span plain
    have size : m.context.frames.size? frame = some decl.layout.argumentsEnd :=
      vetted.sized arithmetic.known is_frame
    simp only [Cell.Inside, Context.books, Context.extent, size, getD_some]
    omega
  case apart =>
    intro v w st su pos other cell cell' different standing standing' owns owns' is_cell is_cell'
    obtain ⟨offset, rfl, plain, member⟩ := placed standing (.inr owns)
    obtain ⟨offset', rfl, plain', member'⟩ := placed standing' (.inr owns')
    cases is_cell
    cases is_cell'
    have fits := Ty.size_le_span plain
    have fits' := Ty.size_le_span plain'
    refine .inr ?_
    change offset + max st.ty.size 1 ≤ offset' ∨ offset' + max su.ty.size 1 ≤ offset
    rcases Declaration.stack_apart member member' different with before | after
    · left
      omega
    · right
      omega
  case current =>
    intro w st pos cell standing current is_cell
    obtain ⟨offset, rfl, plain, member⟩ := placed standing (.inr current.owns)
    cases is_cell
    obtain ⟨canonical, bytes⟩ := received.2 _ (arithmetic.argument vetted orderly received member)
    refine Hardware.read_of_bytes plain canonical ?_
    rw [Placement.address, Placement.base, at_frame]
    exact bytes

theorem mirrors (is_frame : decl.frame = some frame) (received : decl.Receives arguments sp s)
    (at_frame : p.frame frame = sp - 8) (same : c.values = m.values)
    (books : c.books = m.context.books) (statics : c.statics = m.statics)
    (constants : c.constants = m.constants) : Mirrors hw p (m.environment decl arguments) c s := by
  have local_vars : c.IsLocal := by
    intro w value named found is_named
    rw [same] at found
    have plain := arithmetic.plain found
    refine ⟨?_, by obtain eq | ⟨_, _, eq⟩ := eq_of_isPlain plain <;> rw [eq] <;> rfl⟩
    obtain auto | ⟨home, is_home, outside⟩ := (vetted.values found).stored is_named
    · exact auto
    · have homed : value.home? = some home := by simp [Value.home?, is_named, is_home]
      obtain ⟨offset, rfl, _⟩ := arithmetic.home vetted orderly is_frame found homed
      cases outside
  apply Mirrors.intro
  case plain =>
    constructor
    case ints =>
      intro w value found
      exact arithmetic.plain (same ▸ found)
    case canonical =>
      intro w value bits found is_constant
      rw [same] at found
      have plain := arithmetic.plain found
      obtain float | ⟨given, rfl⟩ := (vetted.values found).canonical is_constant
      · simp [isFloat_of_isPlain plain] at float
      · exact canonicalBits_idem _ given
    case isLocal => exact local_vars
    case homed =>
      intro w value place found _ pos _
      rw [same] at found
      rw [← (vetted.values found).position, pos]
    case statics => rw [statics, arithmetic.statics]
    case blobs => rw [constants, arithmetic.blobs]
  case tracks => exact arithmetic.tracks vetted orderly is_frame received at_frame books
  case constant =>
    intro w value bits found is_constant
    rw [same] at found
    simp [Module.environment, found, is_constant]

omit orderly in
theorem isStraight {item : BodyItem} (member : item ∈ items) :
    item.operation.IsStraight m.context := by
  have listed : item.operation ∈ decl.operations := by
    simp only [Declaration.operations, arithmetic.body]
    simp [List.mem_map_of_mem member]
  exact ((vetted.bodies arithmetic.known).vets _ listed).isStraight arithmetic.plain
    (arithmetic.operations item member)

theorem passed (received : decl.Receives arguments sp s) (w : ValueId) (r : Register)
    (member : (w, .register r) ∈ decl.params.zip decl.layout.arguments) :
    s.registers r = m.environment decl arguments w ∧ ∃ ty, m.context.Variable w ty
      ∧ ty.canonicalBits (m.environment decl arguments w) = m.environment decl arguments w := by
  obtain ⟨ty, typed⟩ := typed_place member
  obtain ⟨canonical, content⟩ := received.2 _ (arithmetic.argument vetted orderly received typed)
  obtain ⟨value, found, is_ty, is_named, _⟩ :=
    vetted.formals arithmetic.known (List.mem_append_left _ typed)
  exact ⟨content, ty, ⟨value, found, is_named, is_ty⟩, canonical⟩

end

theorem oneFrame (vetted : m.Vetted) (is_frame : decl.frame = some frame) :
    m.frames.sizes.size = 1 := by
  rw [vetted.frames, arithmetic.only]
  simp [is_frame]

theorem bounded (vetted : m.Vetted) (is_frame : decl.frame = some frame) : m.context.Bounded := by
  intro other size known
  have first : other.index < m.frames.sizes.size := (Array.getElem?_eq_some_iff.mp known).1
  have sized := vetted.sized arithmetic.known is_frame
  have first' : frame.index < m.frames.sizes.size := (Array.getElem?_eq_some_iff.mp sized).1
  rw [arithmetic.oneFrame vetted is_frame] at first first'
  obtain rfl : other = frame := by
    cases other
    cases frame
    congr 1
    simp only at first first'
    omega
  obtain rfl := mem_unique sized known
  exact Nat.le_pred_of_lt (vetted.addressable arithmetic.known)

end

end Module.IsArithmetic

namespace Module

theorem runs_lowerEntry {functions : Array Declaration} {entry : Option FunctionId}
    {c' : Context} {u : Unit} (run : Runs (lowerEntry functions entry) c u c') :
    ∃ code, c' = c.appended code ∧ ∀ i ∈ code, ∀ label, i ≠ .label label := by
  unfold lowerEntry at run
  split at run
  · obtain ⟨_, rfl⟩ := runs_pure.mp run
    exact ⟨[], by simp [Context.appended], by simp⟩
  · split at run
    · exact (runs_inconsistent.mp run).elim
    · next decl _ =>
      simp only [runs_bind, runs_emit] at run
      obtain ⟨_, _, rfl, _, _, rfl, rfl⟩ := run
      exact ⟨[.stackAdjust .statics, .call decl.start,
        .halt], by simp [Context.appended, Context.pushed], by simp⟩

/-- Whatever calls built a module that only computes with integers, if it can be lowered, then its
code computes the result of its operations, however many values there are. -/
theorem straight_line_correct {options : Options} {file : String} {calls : List ModuleCall}
    {decl : Declaration} {items : List BodyItem} {v : ValueId} {loc : Location} {program : Program}
    (once : ((Module.start options file).opened calls).Nodup)
    (arithmetic : (build options file calls).IsArithmetic decl items v loc)
    (finished : (build options file calls).finish = .ok program) :
    ∃ start, labelIndex? program.instrs decl.start = some start
      ∧ ∀ (hw : Hardware) (link : Link) (sp : Word) (s : MachineState) (arguments : List Word),
        decl.Receives arguments sp s → ∃ s' stop,
          Processor.Reaches hw link program.instrs ⟨s, sp, start⟩ ⟨s', sp, stop⟩
          ∧ program.instrs[stop]? = some .ret
          ∧ Operation.interpret hw (build options file calls).types decl.signature.result
            ((build options file calls).environment decl arguments) decl.operations
            = some (s'.registers (.int 0)) := by
  set m := build options file calls
  have orderly : m.Orderly _ [] := orderly_build once
  have vetted : m.Vetted := vetted_build options file calls
  obtain ⟨ranges, c', ran, code, -⟩ := lowered_of_finish finished
  simp only [lowerModule, arithmetic.only, runs_bind] at ran
  obtain ⟨_, c, entry, ran⟩ := ran
  obtain ⟨stub, rfl, unlabelled⟩ := runs_lowerEntry entry
  obtain ⟨external, _⟩ | ⟨_, range, c₁, _, lowered, ended⟩ := runs_lowerFunctions_cons ran
  · simp [arithmetic.internal] at external
  obtain ⟨_, rfl⟩ := runs_pure.mp ended
  obtain ⟨frame, is_frame⟩ : ∃ frame, decl.frame = some frame := by
    cases is_frame : decl.frame with
    | none => simp [lowerFunction, is_frame] at lowered
    | some frame => exact ⟨frame, rfl⟩
  have straight (item : BodyItem) (member : item ∈ items) :
      item.operation.IsStraight (m.context.appended stub) :=
    arithmetic.isStraight vetted member
  have numeric (item : BodyItem) (member : item ∈ items) : item.operation.IsNumeric m.types :=
    (arithmetic.operations item member).isNumeric
  obtain ⟨rest, parts⟩ := lowerFunction_label is_frame arithmetic.body lowered
  have size : (m.context.appended stub).code.size = stub.length := by
    simp [Context.appended, Module.context]
  have typed : (m.context.appended stub).Typed m.types := fun found => types_eq found
  rw [code]
  refine ⟨stub.length, ?_, fun hw link sp s arguments received => ?_⟩
  · have none_before : stub.findIdx? (· == .label decl.start) = none := by
      rw [List.findIdx?_eq_none_iff]
      intro i member
      simpa using unlabelled i member decl.start
    have code_eq : c'.code.toList = stub ++ .label decl.start :: rest := by
      simpa [Context.appended, Module.context] using parts
    simp [labelIndex?, code_eq, List.findIdx?_append, none_before, List.findIdx?_cons]
  · rw [← size, Declaration.operations, arithmetic.body, Option.getD_some, List.map_append,
      List.map_singleton]
    exact lowerFunction_reaches arithmetic.result is_frame arithmetic.body lowered typed straight
      numeric (arithmetic.passed vetted orderly received)
      (fun at_frame => arithmetic.mirrors vetted orderly is_frame received at_frame rfl rfl rfl rfl)
      (arithmetic.oneFrame vetted is_frame) (arithmetic.bounded vetted is_frame)

def mixCalls : List ModuleCall :=
  [.declare "mix"
    ⟨[.int 1 false, .int 4 true, .i64, .i64, .i64, .i64, .int 2 true], .int 4 true⟩ .internal 1,
      .define ⟨0⟩ ["a", "b", "c", "d", "e", "f", "g"] 2
      [.newVariable (.int 4 true) "x", .assign ⟨7⟩ ⟨1⟩, .update .add ⟨7⟩ ⟨1⟩, .binary .mul ⟨7⟩ ⟨6⟩,
        .compare .lt ⟨8⟩ ⟨0⟩, .convert ⟨9⟩ (.int 4 true), .unary .neg ⟨8⟩, .binary .sub ⟨11⟩ ⟨10⟩,
        .ret (some ⟨12⟩)] true]

def mixFunction : Declaration := (build {} "mix.c" mixCalls).functions[0]!

def mixStart : MachineState where
  registers r := if r = .int 0 then 200 else if r = .int 1 then 5 else 0
  memory a := if a = 4096 then 3 else 0

theorem straight_line_correct_mix :
    ∃ program start, (build {} "mix.c" mixCalls).finish = .ok program
      ∧ labelIndex? program.instrs mixFunction.start = some start ∧ ∀ link : Link, ∃ s' stop,
        Processor.Reaches .zero link program.instrs ⟨mixStart, 4096, start⟩ ⟨s', 4096, stop⟩
        ∧ program.instrs[stop]? = some .ret ∧ s'.registers (.int 0) = -31 := by
  have once : ((start {} "mix.c").opened mixCalls).Nodup := by decide +kernel
  have arithmetic : (build {} "mix.c" mixCalls).IsArithmetic mixFunction
      ((mixFunction.body.getD []).dropLast) ⟨12⟩ ⟨"mix.c", 2⟩ := by
    constructor <;> decide +kernel
  have received : mixFunction.Receives [200, 5, 0, 0, 0, 0, 3] 4096 mixStart := by decide +kernel
  have finishes : (build {} "mix.c" mixCalls).finish.isOk = true := by decide +kernel
  have value :
      Operation.interpret .zero (build {} "mix.c" mixCalls).types mixFunction.signature.result
      ((build {} "mix.c" mixCalls).environment mixFunction [200, 5, 0, 0, 0, 0, 3])
        mixFunction.operations
      = some (-31) := by decide +kernel
  cases finished : (build {} "mix.c" mixCalls).finish with
  | error fault =>
    rw [finished] at finishes
    cases finishes
  | ok program =>
    obtain ⟨start, labelled, correct⟩ := straight_line_correct once arithmetic finished
    refine ⟨program, start, rfl, labelled, fun link => ?_⟩
    obtain ⟨s', stop, reached, returned, result⟩ := correct .zero link 4096 mixStart _ received
    exact ⟨s', stop, reached, returned, Option.mem_unique result value⟩

end Module

end RegisterBackend
