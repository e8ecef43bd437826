import RegisterBackend.Proofs.Consistency
import RegisterBackend.Proofs.Passing

/-!
Copies with a conversion between integers, truth values and pointers. Wherever the value is and
wherever the copy goes, the target reads as the converted value.
-/
namespace RegisterBackend

open Gen Hardware Placement

variable {passed : Content} {cell there : Cell} {ty source : Ty}

/-- Truth values, integers of one, two, four or eight bytes, and pointers. -/
structure Ty.IsIntegral (ty : Ty) : Prop where
  scalar : ty.isScalar = true
  not_float : ty.isFloat = false
  sized : ty.RegisterSized

/-- What is read as the type after a word of the source was copied. -/
def Ty.cast (source ty : Ty) (a : Word) : Word :=
  if ty.isBool && !source.isBool then Word.ofBool (a != 0) else Word.narrow a ty.size ty.isSigned

/-- A register that holds nothing, or bytes that are handed out or lie beyond the frame, and where
the value is not. -/
def Context.IsTarget (c c' : Context) (p : Placement) (value : Value) (ty : Ty) : Position → Prop
  | .register r => c.registers.occupant? r = none ∧ r.bank = .int
  | .stack ⟨.outgoing, offset⟩ => p.Clears c'.extent (offset + ty.size)
  | place => ∃ cell, place.cell? = some cell ∧ cell.Inside ty.size c.extent ∧ ∀ {spot cell'},
      value.position = some spot → spot.cell? = some cell' → cell.Apart ty.size cell' value.ty.size

section
variable {hw : Hardware} {p : Placement} {content : ValueId → Content} {c c' : Context}
  {s : MachineState} {v : ValueId} {value : Value} {target : Position} {a : Word} {u : Unit}

theorem Ty.IsIntegral.bank (integral : ty.IsIntegral) : ty.bank = .int := by
  rw [Ty.bank, integral.not_float]
  rfl

theorem Ty.isArray_of_isScalar : (ty : Ty) → ty.isScalar = true → ty.isArray = false
  | .const t, scalar => isArray_of_isScalar t scalar
  | .void, _ | .bool, _ | .int _ _, _ | .float _, _ | .pointer _, _ | .struct _ _,
      _ | .function _ _, _ => rfl
  | .array _ _, scalar => by cases scalar

theorem Ty.IsIntegral.regular (integral : ty.IsIntegral) : ty.Regular :=
  fun _ => ⟨integral.sized, by simp [integral.not_float]⟩

theorem Hardware.converted_integral (integral : source.IsIntegral) (integral' : ty.IsIntegral)
    (canonical : source.canonicalBits a = a) :
    hw.converted source ty (.word a) = .word (source.cast ty a) := by
  have canonical' : hw.Canonical source a := by rwa [Hardware.Canonical, integral.bank]
  rw [Hardware.converted, integral.scalar, integral'.scalar, Bool.and_self, if_pos rfl, Ty.cast]
  split
  · next to_bool =>
    simp only [Hardware.fitted, integral'.bank, Ty.canonicalBits_of_isBool
      (Bool.and_eq_true_iff.mp to_bool).1]
  · next other =>
    rw [← reloaded_eq_fitted integral'.sized (by simp [integral'.not_float])
      (canonical'.of_isBool (integral.bank.trans integral'.bank.symm)
        fun is_bool => by simpa [is_bool] using other)]
    simp only [Hardware.reloaded, integral'.bank]

namespace Hardware.Placed
variable {t : MachineState} (placed : hw.Placed p ty target passed s t)
include placed

theorem view : hw.view p t ty target = passed := by
  cases target with
  | register r =>
    obtain ⟨w, rfl, rfl⟩ := placed
    simp [Hardware.view]
  | _ =>
    obtain ⟨_, _, _, read⟩ := placed
    exact read

theorem registers {q : Register} (other : target ≠ .register q) :
    t.registers q = s.registers q := by
  cases target with
  | register r =>
    obtain ⟨w, _, rfl⟩ := placed
    rw [MachineState.registers_set, if_neg]
    rintro rfl
    exact other rfl
  | _ =>
    obtain ⟨_, _, rfl, _⟩ := placed
    rfl

theorem wrote (is_there : target.cell? = some there) :
    ∃ bytes, bytes.length = ty.size ∧ t = s.write (p.address there) bytes := by
  cases target with
  | register r => cases is_there
  | _ =>
    obtain ⟨bytes, length, rfl, _⟩ := placed
    exact ⟨bytes, length, by rw [locate_eq_address is_there]⟩

end Hardware.Placed

namespace Context.IsTarget
variable (is_target : c.IsTarget c' p value ty target)
include is_target

theorem of_cell (is_there : target.cell? = some there) :
    there.Inside ty.size c.extent ∧ ∀ {spot cell}, value.position = some spot →
      spot.cell? = some cell → there.Apart ty.size cell value.ty.size := by
  have same {place : Position} (is_there : place.cell? = some there)
      (is_target : ∃ cell, place.cell? = some cell ∧ cell.Inside ty.size c.extent ∧ ∀ {spot cell'},
        value.position = some spot → spot.cell? = some cell' →
          cell.Apart ty.size cell' value.ty.size) :
      there.Inside ty.size c.extent ∧ ∀ {spot cell}, value.position = some spot →
        spot.cell? = some cell →
        there.Apart ty.size cell value.ty.size := by
    obtain ⟨cell, is_cell, rest⟩ := is_target
    obtain rfl := Option.mem_unique is_there is_cell
    exact rest
  cases target with
  | register r => cases is_there
  | stack slot =>
    obtain ⟨base, offset⟩ := slot
    cases base with
    | frame id => exact same is_there is_target
    | outgoing => cases is_there
  | static offset | constant id => exact same is_there is_target

theorem read {t : MachineState} {spot : Position} (separate : p.Separates c'.extent)
    (leads : Leads c c') (placed : hw.Placed p ty target passed s t)
    (at_spot : value.position = some spot) (is_cell : spot.cell? = some cell)
    (inside : cell.Inside value.ty.size c'.extent) :
    hw.read value.ty t.memory (p.address cell) = hw.read value.ty s.memory (p.address cell) := by
  cases is_there : target.cell? with
  | some there =>
    obtain ⟨within, apart⟩ := is_target.of_cell is_there
    obtain ⟨bytes, length, rfl⟩ := placed.wrote is_there
    exact read_congr fun i small => write_apart separate (within.trans (leads.extent _))
      inside length.le (apart at_spot is_cell) small
  | none =>
    cases target with
    | register r =>
      obtain ⟨w, _, rfl⟩ := placed
      rfl
    | stack slot =>
      obtain ⟨bytes, length, rfl, _⟩ := placed
      obtain ⟨base, offset⟩ := slot
      cases base with
      | frame id => cases is_there
      | outgoing =>
        refine read_congr fun i small => Memory.write_of_apart _ fun j below same => ?_
        rw [address_add] at same
        simp only [Cell.Inside] at inside
        exact is_target (by omega) (by omega) (same.trans (outgoing_add p offset j))
    | _ => cases is_there

end Context.IsTarget

def castScene (hw : Hardware) (p : Placement) (content : ValueId → Content) (c : Context) : Scene :=
  ⟨hw, p, content, c.books, none, False⟩

section
variable (tracks : Tracks hw p content c.books s) (found : c.values.get? v = some value)
  (is_word : content v = .word a) (is_target : c.IsTarget c' p value ty target)
include tracks found is_word is_target

theorem copyConverted_casts
    (constants : ∀ {v value bits}, c.values.get? v = some value → value.constant? = some bits →
      content v = .word bits)
    (known : value.isConstant = true ∨ value.position.isSome) (integral : value.ty.IsIntegral)
    (integral' : ty.IsIntegral) (canonical : value.ty.canonicalBits a = a)
    (run : Runs (copyConverted v target ty) c u c') :
    Moves (castScene hw p content c) target.register?
      (hw.Placed p ty target (.word (value.ty.cast ty a))) c c' ∧ value.Sits c c' := by
  have small := integral'.sized.le
  have supplies : (castScene hw p content c).Supplies c v value := by
    refine ⟨found, fun is_bits => ⟨constants found is_bits, integral.scalar, ?_⟩,
      fun _ found is_bits => constants found is_bits, False.elim⟩
    rwa [← Content.word.inj (is_word.symm.trans (constants found is_bits)),
      Hardware.Canonical, integral.bank]
  have loadable : value.IsLoadable := by
    refine known.imp_right fun positioned => ?_
    obtain ⟨place, at_place⟩ := Option.isSome_iff_exists.mp positioned
    exact ⟨place, at_place, fun _ => integral.sized⟩
  have suits (q : Register) (is_register : target = .register q) : q.bank = ty.bank := by
    subst is_register
    exact is_target.2.trans integral'.bank.symm
  have apart (memory : target.isRegister = false) : value.position ≠ some target := by
    intro at_target
    obtain ⟨cell, is_cell, _⟩ :=
      tracks.located (Context.standing_books found) (.inl ⟨at_target, memory⟩)
    have apart := (is_target.of_cell is_cell).2 at_target is_cell
    simp only [Cell.Apart, ne_eq, not_true_eq_false, false_or] at apart
    omega
  rw [← converted_integral integral integral' canonical, ← is_word]
  exact copyConverted_moves supplies ⟨tracks, .refl _⟩ False.elim False.elim
    (.inr loadable) suits apart
    integral.regular integral'.regular (by omega)
    (fun other => by simp [integral.scalar, integral'.scalar] at other) (fun _ => integral'.scalar)
    (by simp [Ty.isArray_of_isScalar _ integral.scalar]) run

theorem Scene.Ready.holds {s1 t : MachineState} {value' : Value} {place : Position}
    (ready : (castScene hw p content c).Ready c'.books s1)
    (placed : hw.Placed p ty target passed s1 t) (leads : Leads c c') (sits : value.Sits c c')
    (separate : p.Separates c'.extent) (found' : c'.values.get? v = some value')
    (canonical : hw.Canonical value.ty a) (other : value.constant? = none)
    (at_place : value.position = some place) :
    value'.position = some place ∧ hw.Holds p t value.ty place (.word a) := by
  have standing := Context.standing_books found
  have standing' := Context.standing_books found'
  have forms (w : Word) (same : Content.word a = .word w) : hw.Canonical value.ty w :=
    Content.word.inj same ▸ canonical
  cases memory : place.isRegister with
  | true =>
    cases place with
    | register q =>
      have occupied := tracks.owned standing at_place
      obtain ⟨_, here, at_q, _, _, word, _⟩ :=
        ready.tracks.held ((sits q other at_place).trans occupied)
      obtain rfl := Option.mem_unique standing' here
      have kept : t.registers q = s1.registers q := by
        refine placed.registers ?_
        rintro rfl
        cases is_target.1.symm.trans occupied
      exact ⟨at_q, forms, is_word.symm.trans (word.trans (congrArg Content.word kept.symm))⟩
    | _ => cases memory
  | false =>
    obtain ⟨_, here, at_place'⟩ := ready.anchors standing at_place memory
    obtain rfl := Option.mem_unique standing' here
    obtain ⟨_, same, ages⟩ := leads.values found
    obtain rfl := Option.mem_unique found' same
    obtain ⟨cell, is_cell, inside⟩ := ready.tracks.located standing' (.inl ⟨at_place', memory⟩)
    have read := ready.tracks.current standing' (.inl ⟨at_place', memory⟩) is_cell
    rw [show value'.standing.ty = value.ty from ages.ty] at inside read
    have still :=
      (is_target.read separate leads placed at_place is_cell inside).trans (read.trans is_word)
    refine ⟨at_place', forms, ?_⟩
    cases place with
    | register q => cases memory
    | _ => exact ⟨cell, is_cell, still⟩

end

/-- A casting copy delivers the converted value. Whether the value is a constant, in a register or
in memory, and whatever has to make room on the way: once the code has run, the target reads as
the truth of the word or as its low bytes, and the value is where it was, with the uses it had. -/
theorem casting_copy_delivers_converted (consistent : Consistent hw p content c s)
    (sized : ∀ {r v value}, c.registers.occupant? r = some v → c.values.get? v = some value →
      value.ty.RegisterSized)
    (constants : ∀ {v value bits}, c.values.get? v = some value → value.constant? = some bits →
      content v = .word bits)
    (found : c.values.get? v = some value) (known : value.isConstant = true ∨ value.position.isSome)
    (integral : value.ty.IsIntegral) (integral' : ty.IsIntegral) (is_word : content v = .word a)
    (canonical : value.ty.canonicalBits a = a) (is_target : c.IsTarget c' p value ty target)
    (run : Runs (copyConverted v target ty) c u c') (separate : p.Separates c'.extent) :
    ∃ code s', c'.code.toList = c.code.toList ++ code ∧ Instr.executeAll hw p code s = some s'
      ∧ hw.view p s' ty target = .word (value.ty.cast ty a)
      ∧ ∃ value', c'.values.get? v = some value' ∧ value'.references = value.references
        ∧ value'.constant? = value.constant? ∧ ∀ place, value.constant? = none →
          value.position = some place →
          value'.position = some place ∧ hw.Holds p s' value.ty place (.word a) := by
  have tracks := consistent.tracks sized
  have in_form : hw.Canonical value.ty a := by rwa [Hardware.Canonical, integral.bank]
  obtain ⟨moves, sits⟩ :=
    copyConverted_casts tracks found is_word is_target constants known integral integral'
    canonical run
  obtain ⟨s₁, t, ⟨code, written, ran⟩, placed, ready, _⟩ :=
    moves.carries ⟨tracks, .refl _⟩ (.inr separate)
  obtain ⟨value', found', ages⟩ := moves.leads.values found
  exact ⟨code, t, written, ran, placed.view, value', found', (moves.remains found found').1,
    Value.constant?_eq_of_nature ages.nature, fun place other at_place =>
      ready.holds tracks found is_word is_target placed moves.leads sits separate found'
        in_form other at_place⟩

end

def staticCast : Context :=
  (Gen.outcome (copyConverted ⟨0⟩ (.stack (.outgoing 8)) .bool) staticInRegister).2

theorem staticCast_extent (area : Area) : staticCast.extent area = 0 := by
  have statics : staticCast.statics.used = 0 := by decide +kernel
  have frames : staticCast.frames.sizes = #[] := by decide +kernel
  have blobs : staticCast.constants.blobs = #[] := by decide +kernel
  cases area <;> simp [Context.extent, Frames.size?, ConstantPool.get?, frames, blobs, statics]

/-- The number 7 in a register is true beyond the frame. -/
theorem casting_copy_delivers_converted_truth :
    Runs (copyConverted ⟨0⟩ (.stack (.outgoing 8)) .bool) staticInRegister () staticCast
      ∧ ∃ code s', staticCast.code.toList = staticInRegister.code.toList ++ code
        ∧ Instr.executeAll .zero .zero code ⟨fun _ => 7, fun _ => 0⟩ = some s'
        ∧ Hardware.zero.view .zero s' .bool (.stack (.outgoing 8)) = .word 1 := by
  have run : Runs (copyConverted ⟨0⟩ (.stack (.outgoing 8)) .bool) staticInRegister () staticCast :=
    Prod.ext (by decide +kernel) rfl
  obtain ⟨value, found⟩ : ∃ value, staticInRegister.values.get? ⟨0⟩ = some value := ⟨_, rfl⟩
  obtain ⟨_, at_register, ty, _⟩ := value_of_staticInRegister found
  have unknown {v : ValueId} {value : Value} {bits : Word}
      (found : staticInRegister.values.get? v = some value)
      (is_bits : value.constant? = some bits) : Content.word 7 = .word bits := by
    have dirty := (value_of_staticInRegister found).2.2.2
    cases kind : value.kind <;> simp_all [Value.constant?, Value.isDirty, Value.named?]
  obtain ⟨code, s', written, ran, view, _⟩ :=
    casting_copy_delivers_converted staticInRegister_consistent
    (fun _ found => by rw [(value_of_staticInRegister found).2.2.1]; decide)
    unknown found (.inr (by simp [at_register])) (by rw [ty]; exact ⟨rfl, rfl, by decide⟩)
    ⟨rfl, rfl, by decide⟩ rfl (by rw [ty]; rfl)
      (fun _ _ _ small => by simp [staticCast_extent] at small) run
    (fun small => by simp [staticCast_extent] at small)
  rw [ty] at view
  exact ⟨run, code, s', written, ran, view⟩

end RegisterBackend
