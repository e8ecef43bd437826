import RegisterBackend.Proofs.Consistency
import RegisterBackend.Proofs.Operators

/-!
The words that operators on integers and pointers compute. They depend on the types and the words
of the operands alone, not on which of them became immediates.
-/
namespace RegisterBackend

open Gen BitVec Bool

variable {hw : Hardware} {ity lhsTy pointee ptr rhsTy ty : Ty} {w x y : Word} {p : Placement}
  {c : Context}

/-- What an operator may rely on: the bookkeeping is in order, and the machine holds what it says.
-/
structure Operable (hw : Hardware) (p : Placement) (content : ValueId → Content) (c : Context)
    (s : MachineState) : Prop where
  consistent : Consistent hw p content c s
  sized : ∀ {r v value}, c.registers.occupant? r = some v → c.values.get? v = some value →
    value.ty.RegisterSized
  homed : c.Homed
  constants : ∀ {v value bits}, c.values.get? v = some value → value.constant? = some bits →
    content v = .word bits

/-- A value of the type that holds the word, as a constant or in any other form. -/
def Context.Holds (c : Context) (content : ValueId → Content) (v : ValueId) (ty : Ty)
    (w : Word) : Prop :=
  content v = .word w ∧ ∃ value, c.values.get? v = some value ∧ value.ty = ty

/-- The code written from `c` to `c'` leaves the word in the register that `c'` has for the value.
-/
def Answers (hw : Hardware) (p : Placement) (c : Context) (s : MachineState)
    (c' : Context) (v : ValueId) (w : Word) : Prop :=
  ∃ s' value r, Executes hw p c s c' s' ∧ c'.values.get? v = some value ∧ value.register? = some r
    ∧ s'.registers r = w

/-- A run of an operator on operands of the types that hold the words, in whatever form they are. -/
structure Application (hw : Hardware) (lower : ValueId → ValueId → ValueId → Gen Unit)
    (lhsTy rhsTy ty : Ty) (x y : Word) where
  p : Placement
  content : ValueId → Content
  c : Context
  s : MachineState
  c' : Context
  lhs : ValueId
  rhs : ValueId
  result : ValueId
  stands : Operable hw p content c s
  left : c.Holds content lhs lhsTy x
  right : c.Holds content rhs rhsTy y
  typed : ∃ value, c.values.get? result = some value ∧ value.ty = ty
  run : Runs (lower lhs rhs result) c () c'
  separate : p.Separates c'.extent

namespace Application
variable {lower : ValueId → ValueId → ValueId → Gen Unit}

def Gives (a : Application hw lower lhsTy rhsTy ty x y) (w : Word) : Prop :=
  Answers hw a.p a.c a.s a.c' a.result w

end Application

section
variable {p : Placement} {content : ValueId → Content} {c c' c1 : Context}
  {s s1 : MachineState} {v : ValueId} {r : Register} {u : Unit}

theorem Operable.reflects (stands : Operable hw p content c s) :
    Reflects hw p (.free content) c s :=
  ⟨stands.homed, trivial, stands.consistent.tracks stands.sized, stands.constants⟩

theorem Context.Holds.words (holds : c.Holds content v ty w) (not_float : ty.isFloat = false) :
    (Realm.free content).Words c v w := by
  obtain ⟨word, value, found, rfl⟩ := holds
  refine ⟨word, fun found' => ?_⟩
  obtain rfl := Option.mem_unique found found'
  rw [Ty.bank, not_float]
  rfl

theorem register?_of_bindRegister (run : Runs (bindRegister r v) c u c') :
    ∃ value, c'.values.get? v = some value ∧ value.register? = some r := by
  obtain ⟨value, found, _, _, _, _, remarks, _, rfl⟩ := runs_bindRegister run
  have touched := (c.values.modify v ({ · with position := some (.register r) })).map_get?_touch
      v v Value.register?
    fun _ _ => rfl
  rw [ValueStore.get?_modify, if_pos rfl, found] at touched
  obtain ⟨value', found', at_r⟩ := Option.map_eq_some_iff.mp touched
  exact ⟨value', found', at_r⟩

theorem bindRegister_delivers (ran : Executes hw p c s c1 (s1.set r w))
    (run : Runs (bindRegister r v) c1 u c') : Answers hw p c s c' v w := by
  obtain ⟨value, found, at_r⟩ := register?_of_bindRegister run
  refine ⟨s1.set r w, value, r, ran.trans ?_, found, at_r, by simp⟩
  obtain ⟨_, _, _, _, _, _, remarks, only, rfl⟩ := runs_bindRegister run
  exact .remarks (fun i member => (only i member).remark) rfl

theorem markDirty_delivers {value : Value}
    (ran : Executes hw p c s c1 (s1.set r w)) (found : c1.values.get? v = some value)
    (at_r : value.register? = some r) (is_named : value.isNamed = true)
    (run : Runs (markDirty v) c1 u c') : Answers hw p c s c' v w := by
  obtain ⟨books, code⟩ := markDirty_books found is_named run
  obtain ⟨value', found', standing⟩ := standing_of_put books
  have pos : value'.position = value.position := congrArg Standing.position standing
  exact ⟨s1.set r w, value', r, ran.trans (.of_code code), found',
    by rw [Value.register?, pos, ← Value.register?, at_r], by simp⟩

end

namespace Application

theorem gives_binary {op : BinaryOp} {inPlace : Bool}
    (a : Application hw (lowerBinary op · · · inPlace) lhsTy rhsTy ty x y)
    (not_float : lhsTy.isFloat = false) (not_float' : rhsTy.isFloat = false)
    (updates : inPlace = true → a.result = a.lhs
      ∧ ∃ value, a.c.values.get? a.lhs = some value ∧ value.isNamed = true) :
    a.Gives (op.compute hw inPlace lhsTy rhsTy ty x y) := by
  have reflects := a.stands.reflects
  obtain ⟨_, left, found_left, rfl⟩ := id a.left
  obtain ⟨_, right, found_right, rfl⟩ := id a.right
  obtain ⟨value, found, rfl⟩ := a.typed
  have run := a.run
  simp only [lowerBinary, runs_found found_left, runs_bind, runs_discard, runs_valueOf] at run
  obtain ⟨_, _, ⟨_, _, same⟩, _, _, ⟨_, _, same'⟩, run⟩ := run
  rw [same', same] at run
  simp only [not_float, false_eq_true, ↓reduceIte] at run
  have settles (is_update : inPlace = true) : a.c.Settles hw a.lhs := by
    intro value bits found is_bits
    obtain ⟨_, _, found', is_named⟩ := updates is_update
    obtain rfl := Option.mem_unique found found'
    cases kind : value.kind <;> simp_all [Value.constant?, Value.isNamed, Value.named?]
  obtain ⟨target, dst, c1, s1, is_target, computes, finished⟩ :=
    lowerIntBinary_computes reflects found
    found_left found_right (a.left.words not_float)
      (a.right.words not_float') settles run a.separate
  cases inPlace with
  | false => exact bindRegister_delivers computes.executes finished
  | true =>
    obtain ⟨same_result, old, found_old, is_named⟩ := updates rfl
    obtain rfl := is_target rfl
    obtain ⟨value1, found1, ages⟩ := computes.leads.values found_old
    have pos := (computes.reflects.tracks.occupant_iff (Context.standing_books found1)).mp
        computes.occupant
    have at_dst : value1.position = some (.register dst) := pos
    rw [Gives, same_result]
    exact markDirty_delivers computes.executes found1
      (by simp [Value.register?, at_dst, Position.register?])
      ((Value.isNamed_eq_of_nature ages.nature).trans is_named) finished

theorem gives_compare {op : CompareOp} (a : Application hw (lowerCompare op) lhsTy rhsTy ty x y)
    (not_float : lhsTy.isFloat = false) (not_float' : rhsTy.isFloat = false) :
    a.Gives (Word.ofBool ((op.cond lhsTy.isSigned).holds x y)) := by
  obtain ⟨_, left, found_left, rfl⟩ := id a.left
  have run := a.run
  rw [lowerCompare, runs_found found_left] at run
  simp only [not_float, false_eq_true, ↓reduceIte] at run
  obtain ⟨dst, c1, c2, c3, s2, _, ran, _, bound, is_end⟩ :=
    lowerIntCompare_computes a.stands.reflects
    (a.left.words not_float) (a.right.words not_float') run a.separate
  obtain ⟨s', value, r, ran', found, at_r, content⟩ := bindRegister_delivers ran bound
  rw [Gives, is_end]
  exact ⟨s', value, r, ran'.trans (.of_code rfl), found, at_r, content⟩

end Application

/-- The value is no variable and needs no memory: what it holds is the word. -/
def Value.rests (value : Value) (registers : Register → Word) (w : Word) : Bool :=
  !value.isNamed && decide value.ty.RegisterSized && value.ty.bank == .int
    && value.ty.canonicalBits w == w
    && value.constant?.all (· == w) && value.position.all fun place =>
      place.register?.any (registers · == w)

theorem Operable.of_rests {s : MachineState} {words : ValueId → Word}
    (checked : c.check = .ok ()) (rests : c.values.toList.all fun (v, value) =>
      value.isUnplaced || value.rests s.registers (words v)) :
      Operable hw p (.word ∘ words) c s := by
  have either {v : ValueId} {value : Value} (found : c.values.get? v = some value) :=
    List.all_eq_true.mp rests (v, value) (ValueStore.mem_toList.mpr found)
  have known {v : ValueId} {value : Value} (found : c.values.get? v = some value)
      (placed : value.isUnplaced = false) :=
    (or_eq_true _ _ ▸ either found).resolve_left (by simp [placed])
  simp only [Value.rests, and_eq_true, not_eq_true', decide_eq_true_eq, beq_iff_eq,
    Option.all_eq_true, Option.any_eq_true] at known
  have unnamed {v : ValueId} {value : Value} (found : c.values.get? v = some value) :
      value.isNamed = false := by
    cases placed : value.isUnplaced with
    | true => exact Value.isNamed_of_isUnplaced placed
    | false => exact (known found placed).1.1.1.1.1
  have homeless {v : ValueId} {value : Value} (found : c.values.get? v = some value) :
      value.home? = none := by
    have unnamed := unnamed found
    rw [Value.isNamed, Option.isSome_eq_false_iff, Option.isNone_iff_eq_none] at unnamed
    rw [Value.home?, unnamed]
    rfl
  have in_register {v : ValueId} {value : Value} {place : Position}
      (found : c.values.get? v = some value)
      (at_place : value.position = some place) : ∃ r, place = .register r
        ∧ s.registers r = words v := by
    obtain ⟨r, at_r, word⟩ := (known found (by simp [Value.isUnplaced, at_place])).2 _ at_place
    exact ⟨r, by cases place <;> simp_all [Position.register?], word⟩
  have owns_nothing {v : ValueId} {value : Value} {place : Position}
      (found : c.values.get? v = some value) :
      ¬value.standing.Owns place := by
    rintro (⟨at_place, memory⟩ | home)
    · obtain ⟨r, rfl, _⟩ := in_register found at_place
      cases memory
    · cases (homeless found).symm.trans home
  constructor
  case consistent =>
    constructor
    case checked => exact checked
    case located => exact fun found owns => (owns_nothing found owns).elim
    case apart => exact fun _ found _ owns => (owns_nothing found owns).elim
    case backed => exact fun _ found named => by cases (unnamed found).symm.trans named
    case holds =>
      intro v value pos found at_position
      obtain ⟨r, rfl, word⟩ := in_register found at_position
      refine ⟨fun w is_word => ?_, congrArg Content.word word.symm⟩
      cases is_word
      have facts := (known found (by simp [Value.isUnplaced, at_position])).1.1
      rw [Hardware.Canonical, facts.1.2]
      exact facts.2
    case written => exact fun found named => by cases (unnamed found).symm.trans named
  case sized =>
    intro r v value occupied found
    obtain ⟨_, found', pos, _⟩ := (Context.check_ok_iff.mp checked).1 occupied
    obtain rfl := Option.mem_unique found found'
    exact (known found (by simp [Value.isUnplaced, pos])).1.1.1.1.2
  case homed => exact fun found named => by cases (unnamed found).symm.trans named
  case constants =>
    intro v value bits found is_constant
    refine congrArg Content.word ((known found ?_).1.2 _ is_constant).symm
    cases kind : value.kind <;> simp_all [Value.constant?, Value.isUnplaced, Value.isUnnamed]

theorem separates_nothing (frames : c.frames.sizes = #[]) (statics : c.statics.used = 0)
    (blobs : c.constants.blobs = #[]) : p.Separates c.extent := by
  intro a b i j hi
  cases a <;> simp [Context.extent, Frames.size?, ConstantPool.get?, frames, blobs, statics] at hi

/-- Two operands, as constants or in the first two registers, and a place for the result. -/
def Context.operands (constant : Bool) (lhsTy rhsTy ty : Ty) (x y : Word) : Context :=
  let operand (ty : Ty) (w : Word) (r : Register) : Value :=
    { ty, description := "", references := 1
      kind := if constant then .constant w else .temporary
      position := if constant then none else some (.register r) }
  { values := ⟨#[operand lhsTy x (.int 0), operand rhsTy y (.int 1),
    { ty, kind := .temporary, description := "" }], 0⟩
    registers := if constant then .empty
      else (RegisterFile.empty.setOccupant (.int 0) (some ⟨0⟩)).setOccupant (.int 1) (some ⟨1⟩) }

/-- The operator reaches its end on these operands and needs no memory. -/
def Context.settled (c : Context) (op : BinaryOp) (x y : Word) : Prop :=
  c.check = .ok ()
    ∧ c.values.toList.all (fun (v, value) =>
      value.rests (fun r => if r = .int 0 then x else y)
        (if v.index = 0 then x else if v.index = 1 then y else 0))
    ∧ (outcome (lowerBinary op ⟨0⟩ ⟨1⟩ ⟨2⟩ false) c).1 = .ok ()
    ∧ (outcome (lowerBinary op ⟨0⟩ ⟨1⟩ ⟨2⟩ false) c).2.frames.sizes = #[]
    ∧ (outcome (lowerBinary op ⟨0⟩ ⟨1⟩ ⟨2⟩ false) c).2.statics.used = 0
    ∧ (outcome (lowerBinary op ⟨0⟩ ⟨1⟩ ⟨2⟩ false) c).2.constants.blobs = #[]

instance (c : Context) (op : BinaryOp) (x y : Word) : Decidable (c.settled op x y) :=
  inferInstanceAs (Decidable (_ ∧ _))

def Application.sample (constant : Bool) (op : BinaryOp) (lhsTy rhsTy ty : Ty) (x y : Word)
    (settled : (Context.operands constant lhsTy rhsTy ty x y).settled op x y) :
    Application .zero (lowerBinary op · · · false) lhsTy rhsTy ty x y where
  p := .zero
  content := .word ∘ fun v => if v.index = 0 then x else if v.index = 1 then y else 0
  c := .operands constant lhsTy rhsTy ty x y
  s := ⟨fun r => if r = .int 0 then x else y, fun _ => 0⟩
  c' := (outcome (lowerBinary op ⟨0⟩ ⟨1⟩ ⟨2⟩ false) (.operands constant lhsTy rhsTy ty x y)).2
  lhs := ⟨0⟩
  rhs := ⟨1⟩
  result := ⟨2⟩
  stands := .of_rests settled.1 (List.all_eq_true.mpr fun _ member =>
    (or_eq_true _ _).mpr (.inr (List.all_eq_true.mp settled.2.1 _ member)))
  left := ⟨rfl, _, rfl, rfl⟩
  right := ⟨rfl, _, rfl, rfl⟩
  typed := ⟨_, rfl, rfl⟩
  run := Prod.ext settled.2.2.1 rfl
  separate := separates_nothing settled.2.2.2.1 settled.2.2.2.2.1 settled.2.2.2.2.2

/-- Folding constants into immediates does not change results. Two runs of an operator on integers
and pointers, in whatever contexts and whichever of the operands are constants there, leave the same
word in the register of the result if the operands have the same types and hold the same words. For
arithmetic it is the word that `BinaryOp.compute` gives, for a comparison the truth of the
condition. -/
theorem folding_keeps_results (hw : Hardware) (lhsTy rhsTy ty : Ty)
    (not_float : lhsTy.isFloat = false) (not_float' : rhsTy.isFloat = false) (x y : Word) :
    (∀ op inPlace, ∀ a b : Application hw (lowerBinary op · · · inPlace) lhsTy rhsTy ty x y,
      (inPlace = true → ∀ a' ∈ [a, b], a'.result = a'.lhs
        ∧ ∃ value, a'.c.values.get? a'.lhs = some value ∧ value.isNamed = true) →
      ∃ w, w = op.compute hw inPlace lhsTy rhsTy ty x y ∧ a.Gives w ∧ b.Gives w)
    ∧ ∀ op, ∀ a b : Application hw (lowerCompare op) lhsTy rhsTy ty x y,
      ∃ w, w = Word.ofBool ((op.cond lhsTy.isSigned).holds x y) ∧ a.Gives w ∧ b.Gives w := by
  refine ⟨fun op inPlace a b updates => ⟨_, rfl, ?_, ?_⟩, fun op a b => ⟨_, rfl, ?_, ?_⟩⟩
  · exact a.gives_binary not_float not_float' fun is_update => updates is_update a (by simp)
  · exact b.gives_binary not_float not_float' fun is_update => updates is_update b (by simp)
  · exact a.gives_compare not_float not_float'
  · exact b.gives_compare not_float not_float'

/-- The fourth of the words from 1000 on, from constants and from registers. -/
theorem folding_keeps_sum :
    ∃ folded unfolded :
    Application .zero (lowerBinary .add · · · false) (.pointer .i64) .i64 (.pointer .i64) 1000 3,
      folded.c = .operands true (.pointer .i64) .i64 (.pointer .i64) 1000 3
      ∧ unfolded.c = .operands false (.pointer .i64) .i64 (.pointer .i64) 1000 3
      ∧ folded.Gives 1024 ∧ unfolded.Gives 1024 := by
  refine ⟨.sample true .add _ _ _ _ _ (by decide +kernel),
    .sample false .add _ _ _ _ _ (by decide +kernel), rfl, rfl, ?_⟩
  obtain ⟨w, is_word, gives⟩ :=
    (folding_keeps_results .zero (.pointer .i64) .i64 (.pointer .i64) rfl rfl 1000 3).1
    .add false (.sample true .add _ _ _ _ _ (by decide +kernel))
      (.sample false .add _ _ _ _ _ (by decide +kernel))
    (by simp)
  obtain rfl : w = 1024 := is_word.trans (by decide +kernel)
  exact gives

/-- The number that a word stands for as a value of the type. -/
def Ty.number (ty : Ty) (w : Word) : Int := if ty.isSigned then w.toInt else w.toNat

namespace Ty
variable {divisor : Option Word}

theorem ofInt_number (ty : Ty) (w : Word) : BitVec.ofInt 64 (ty.number w) = w := by
  unfold number
  split
  · exact ofInt_toInt
  · simp

theorem pointee?_unqualified (ty : Ty) : ty.unqualified.pointee? = ty.pointee? :=
  ty.unqualified_eq pointee? fun _ => rfl

theorem size_of_pointee? : {ty pointee : Ty} → ty.pointee? = some pointee → ty.size = 8
  | .pointer _, _, _ => rfl
  | .const t, _, points => @size_of_pointee? t _ points

theorem pointee?_of_isInteger : {ty : Ty} → ty.isInteger = true → ty.pointee? = none
  | .int _ _, _ => rfl
  | .bool, _ => rfl
  | .const t, integer => @pointee?_of_isInteger t integer

theorem isFloat_eq_false_of_isInteger : {ty : Ty} → ty.isInteger = true → ty.isFloat = false
  | .int _ _, _ => rfl
  | .bool, _ => rfl
  | .const t, integer => @isFloat_eq_false_of_isInteger t integer

theorem isFloat_eq_false_of_pointee? :
    {ty pointee : Ty} → ty.pointee? = some pointee → ty.isFloat = false
  | .pointer _, _, _ => rfl
  | .const t, _, points => @isFloat_eq_false_of_pointee? t _ points

theorem fitted_of_size (word : ty.size = 8) (w : Word) : ty.fitted w = w := by
  rw [fitted, if_neg (by omega)]

theorem of_displacement (op : BinaryOp) (points : ptr.pointee? = some pointee)
    (integer : ity.isInteger = true) (accepted : op.result ptr ity divisor = .ok ty) :
    pointee.size ≠ 0 ∧ ty = ptr.unqualified := by
  have is_pointer := isPointer_of_pointee? points
  simp only [BinaryOp.result, points, pointee?_of_isInteger integer,
    isFloat_eq_false_of_pointee? points, isFloat_eq_false_of_isInteger integer,
      BinaryOp.displacementResult, is_pointer] at accepted
  split at accepted
  · cases accepted
  · simp only [bne_self_eq_false, false_eq_true, ↓reduceIte] at accepted
    split at accepted
    · cases accepted
    · split at accepted
      · cases accepted
      · rename_i nonempty
        exact ⟨nonempty, (Except.ok.inj accepted).symm⟩

theorem of_difference {a b : Ty} (op : BinaryOp) (points : ptr.pointee? = some a)
    (points' : ity.pointee? = some b) (accepted : op.result ptr ity divisor = .ok ty) :
    ty = .i64 := by
  simp only [BinaryOp.result, points, points', isFloat_eq_false_of_pointee? points,
    isFloat_eq_false_of_pointee? points', BinaryOp.differenceResult] at accepted
  split at accepted
  · cases accepted
  · simp only [bne_self_eq_false, false_eq_true, ↓reduceIte] at accepted
    split at accepted
    · cases accepted
    · split at accepted
      · cases accepted
      · exact (Except.ok.inj accepted).symm

end Ty

section
variable {p i : Word}

theorem stepSize_of_pointee? (points : ptr.pointee? = some pointee) (nonempty : pointee.size ≠ 0) :
    stepSize ptr = pointee.size := by
  simp only [stepSize, points]
  omega

/-- An integer next to a pointer counts pointees. -/
theorem BinaryOp.ordered_displacement (op : BinaryOp) (points : ptr.pointee? = some pointee)
    (nonempty : pointee.size ≠ 0) (integer : ity.isInteger = true) (word : ty.size = 8) :
    op.ordered hw ptr ity ty p i
      = (op.aluOp ty.isSigned).eval hw p (BitVec.ofInt 64 (ity.number i * pointee.size)) := by
  have not_pointer :
      ity.isPointer = false := by rw [ity.isPointer_eq, Ty.pointee?_of_isInteger integer]; rfl
  simp only [ordered, Ty.fitted_of_size word, Ty.inSteps, Ty.factor, not_pointer,
    Bool.and_false, Bool.false_and, Bool.false_eq_true, ↓reduceIte,
      stepSize_of_pointee? points nonempty]
  rw [BitVec.ofInt_mul, ity.ofInt_number, BitVec.ofInt_natCast]

/-- The step back divides exactly, whatever the sign of the distance. -/
theorem BinaryOp.ordered_difference {a b : Ty} {n : Int} (points : ptr.pointee? = some a)
    (points' : ity.pointee? = some b) (nonempty : a.size ≠ 0) (small : a.size < 2 ^ 63)
    (low : -2 ^ 63 ≤ n * a.size) (high : n * a.size < 2 ^ 63) :
    (BinaryOp.sub.ordered hw ptr ity .i64 (p + BitVec.ofInt 64 (n * a.size)) p).toInt = n := by
  have distance : p + BitVec.ofInt 64 (n * a.size) - p = BitVec.ofInt 64 (n * a.size) := by
    rw [BitVec.add_comm, BitVec.add_sub_cancel]
  have exactly : (BitVec.ofInt 64 (n * a.size)).toInt = n * a.size :=
    BitVec.toInt_ofInt_eq_self (by decide) low high
  have step : (BitVec.ofNat 64 a.size).toInt = a.size := by
    rw [← BitVec.ofInt_natCast]
    exact BitVec.toInt_ofInt_eq_self (by decide) (by omega) (by omega)
  have unchanged (w : Word) : Ty.i64.fitted w = w := Ty.fitted_of_size rfl w
  simp only [ordered, aluOp, AluOp.eval, unchanged, Ty.inSteps, Ty.factor,
    Ty.isPointer_of_pointee? points, Ty.isPointer_of_pointee? points', Bool.and_self, ↓reduceIte,
    stepSize_of_pointee? points nonempty, mul_one, distance, Bool.true_and, decide_eq_true_eq]
  split
  case isFalse single =>
    rw [exactly, show a.size = 1 by omega]
    omega
  case isTrue several =>
    have nonzero : BitVec.ofNat 64 a.size ≠ 0 := fun zero => by
      rw [zero] at step
      exact nonempty (by simpa using step.symm)
    have cancelled : (n * a.size : Int).tdiv a.size = n := Int.mul_tdiv_cancel n (by omega)
    rw [AluOp.divides, if_neg nonzero, BitVec.toInt_sdiv_of_ne_or_ne _ _ (.inr fun minus => ?_),
      exactly, step, cancelled]
    rw [minus] at step
    have negative : (-1#64 : Word).toInt = -1 := by decide
    omega

end

/-- Pointer difference undoes pointer addition. The type of the sum and those of the two differences
are those that the builder gives them; the sum may have the pointer on either side. -/
theorem difference_undoes_displacement (hw : Hardware)
    (ptr ity pointee sumTy distanceTy startTy : Ty) (divisor divisor' divisor'' : Option Word)
    (points : ptr.pointee? = some pointee) (small : pointee.size < 2 ^ 63)
    (integer : ity.isInteger = true) (sum : BinaryOp.add.result ptr ity divisor = .ok sumTy)
    (distance : BinaryOp.sub.result sumTy ptr divisor' = .ok distanceTy)
    (start : BinaryOp.sub.result sumTy ity divisor'' = .ok startTy) (p i : Word)
    (low : -2 ^ 63 ≤ ity.number i * pointee.size) (high : ity.number i * pointee.size < 2 ^ 63) :
    ∃ q, q = p + BitVec.ofInt 64 (ity.number i * pointee.size)
      ∧ (∀ a : Application hw (lowerBinary .add · · · false) ptr ity sumTy p i, a.Gives q)
      ∧ (∀ a : Application hw (lowerBinary .add · · · false) ity ptr sumTy i p, a.Gives q)
      ∧ (∀ a : Application hw (lowerBinary .sub · · · false) sumTy ptr distanceTy q p,
        ∃ w, a.Gives w ∧ w.toInt = ity.number i)
      ∧ ∀ a : Application hw (lowerBinary .sub · · · false) sumTy ity startTy q i, a.Gives p := by
  obtain ⟨nonempty, rfl⟩ := Ty.of_displacement _ points integer sum
  have points' := (Ty.pointee?_unqualified ptr).trans points
  obtain ⟨_, rfl⟩ := Ty.of_displacement _ points' integer start
  obtain rfl := Ty.of_difference _ points' points distance
  have not_float := Ty.isFloat_eq_false_of_pointee? points
  have not_float' := Ty.isFloat_eq_false_of_pointee? points'
  have whole := Ty.isFloat_eq_false_of_isInteger integer
  have is_pointer := Ty.isPointer_of_pointee? points
  have is_pointer' := Ty.isPointer_of_pointee? points'
  have not_pointer :
      ity.isPointer = false := by rw [ity.isPointer_eq, Ty.pointee?_of_isInteger integer]; rfl
  have word := Ty.size_of_pointee? points'
  have points'' := (Ty.pointee?_unqualified ptr.unqualified).trans points'
  refine ⟨_, rfl, fun a => ?_, fun a => ?_, fun a =>
    ⟨_, a.gives_binary not_float' not_float (by simp), ?_⟩, fun a => ?_⟩
  · have gives := a.gives_binary not_float whole (by simp)
    simp only [BinaryOp.compute, not_pointer, Bool.and_false, Bool.false_and,
      Bool.false_eq_true, ↓reduceIte,
        BinaryOp.ordered_displacement _ points nonempty integer word] at gives
    exact gives
  · have gives := a.gives_binary whole not_float (by simp)
    simp only [BinaryOp.compute, not_pointer, is_pointer, Bool.not_false, Bool.and_self, ↓reduceIte,
      BinaryOp.ordered_displacement _ points nonempty integer word] at gives
    exact gives
  · simp only [BinaryOp.compute, is_pointer', Bool.not_true, Bool.and_false,
      Bool.false_eq_true, ↓reduceIte]
    exact BinaryOp.ordered_difference points' points nonempty small low high
  · have gives := a.gives_binary not_float' whole (by simp)
    simp only [BinaryOp.compute, not_pointer, Bool.and_false, Bool.false_and,
      Bool.false_eq_true, ↓reduceIte, BinaryOp.ordered_displacement _ points' nonempty integer
        (Ty.size_of_pointee? points'')] at gives
    rwa [BinaryOp.aluOp, AluOp.eval, BitVec.add_sub_cancel] at gives

/-- Three elements of twelve bytes back from 1000, with an index of one byte. -/
theorem displacement_undone :
    ∃ (sum : Application .zero (lowerBinary .add · · · false) (.int 1 true)
      (.pointer (.array (.int 4 true) 3))
        (.pointer (.array (.int 4 true) 3)) (-3) 1000)
      (distance : Application .zero (lowerBinary .sub · · · false)
        (.pointer (.array (.int 4 true) 3))
        (.pointer (.array (.int 4 true) 3)) .i64 964 1000)
      (start : Application .zero (lowerBinary .sub · · · false)
        (.pointer (.array (.int 4 true) 3)) (.int 1 true)
        (.pointer (.array (.int 4 true) 3)) 964 (-3)),
      sum.Gives 964 ∧ (∃ w, distance.Gives w ∧ w.toInt = -3) ∧ start.Gives 1000 := by
  obtain ⟨q, is_sum, _, sum, distance, start⟩ := difference_undoes_displacement .zero
    (.pointer (.array (.int 4 true) 3)) (.int 1 true) (.array (.int 4 true) 3)
      (.pointer (.array (.int 4 true) 3)) .i64
    (.pointer (.array (.int 4 true) 3))
      none none none rfl (by decide +kernel) rfl (by decide +kernel)
    (by decide +kernel) (by decide +kernel) 1000 (-3) (by decide +kernel) (by decide +kernel)
  obtain rfl : q = 964 := is_sum.trans (by decide +kernel)
  exact ⟨.sample true .add _ _ _ _ _ (by decide +kernel),
    .sample false .sub _ _ _ _ _ (by decide +kernel),
    .sample true .sub _ _ _ _ _ (by decide +kernel), sum _, distance _, start _⟩

end RegisterBackend
