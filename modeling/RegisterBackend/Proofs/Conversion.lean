import RegisterBackend.Proofs.Agreement

/-!
What a value becomes when it is passed as a value of another type. Scalars are fitted to the width
and form of the new type; what is not a scalar keeps its bytes.
-/
namespace RegisterBackend

open Word

variable {source ty a b : Ty} {address : Word} {m : Memory}

namespace Ty

theorem canonicalBits_eq_narrow (sized : ty.RegisterSized)
    (integer : ty.isBool = false) (w : Word) :
    ty.canonicalBits w = narrow w ty.size ty.isSigned := by
  have pos := sized.size_pos
  have le := sized.le
  rw [canonicalBits, if_neg (by simp [integer])]
  split
  · next whole =>
    have eight : ty.size = 8 := by simp only [wordSize] at whole; omega
    rw [eight, narrow_word]
  · rfl

theorem canonicalBits_of_isBool (truth : ty.isBool = true) (w : Word) :
    ty.canonicalBits w = ofBool (w != 0) := by
  rw [canonicalBits, if_pos truth, ofBool]
  by_cases zero : w = 0 <;> simp [zero]

theorem canonicalBits_idem (ty : Ty) (w : Word) :
    ty.canonicalBits (ty.canonicalBits w) = ty.canonicalBits w := by
  cases truth : ty.isBool with
  | true =>
    rw [canonicalBits_of_isBool truth, canonicalBits_of_isBool truth]
    cases w != 0 <;> rfl
  | false =>
    simp only [canonicalBits, truth, Bool.false_eq_true, ↓reduceIte]
    split
    · rfl
    · exact narrow_narrow_of_le w le_rfl ty.isSigned

theorem unqualified_eq {α : Type} (f : Ty → α) (blind : ∀ t, f (.const t) = f t) :
    (ty : Ty) → f ty.unqualified = f ty
  | .const t => (unqualified_eq f blind t).trans (blind t).symm
  | .void => rfl
  | .bool => rfl
  | .int _ _ => rfl
  | .float _ => rfl
  | .pointer _ => rfl
  | .array _ _ => rfl
  | .struct _ _ => rfl
  | .function _ _ => rfl

structure Alike (a b : Ty) : Prop where
  size : a.size = b.size
  bank : a.bank = b.bank
  isSigned : a.isSigned = b.isSigned
  isBool : a.isBool = b.isBool

theorem Alike.symm (alike : a.Alike b) : b.Alike a :=
  ⟨alike.size.symm, alike.bank.symm, alike.isSigned.symm, alike.isBool.symm⟩

theorem Alike.trans {c : Ty} (first : a.Alike b) (second : b.Alike c) : a.Alike c :=
  ⟨first.size.trans second.size, first.bank.trans second.bank, first.isSigned.trans second.isSigned,
    first.isBool.trans second.isBool⟩

theorem isFloat_unqualified (ty : Ty) : ty.unqualified.isFloat = ty.isFloat :=
  unqualified_eq isFloat (fun _ => rfl) ty

theorem alike_unqualified (ty : Ty) : ty.unqualified.Alike ty where
  size := unqualified_eq size (fun t => by rw [size]) ty
  bank := by rw [bank, bank, isFloat_unqualified]
  isSigned := unqualified_eq isSigned (fun _ => rfl) ty
  isBool := unqualified_eq isBool (fun _ => rfl) ty

theorem Alike.of_unqualified (same : a.unqualified = b.unqualified) : a.Alike b :=
  a.alike_unqualified.symm.trans (same ▸ b.alike_unqualified)

theorem isScalar_unqualified (ty : Ty) : ty.unqualified.isScalar = ty.isScalar :=
  unqualified_eq isScalar (fun _ => rfl) ty

theorem alike_of_assignable (assignable : source.assignable ty = true)
    (scalar : (source.isScalar && ty.isScalar) = false)
    (decays : (source.isArray && ty.isPointer) = false) : source.Alike ty := by
  refine source.alike_unqualified.symm.trans (.trans ?_ ty.alike_unqualified)
  rw [← isScalar_unqualified source, ← isScalar_unqualified ty] at scalar
  rw [← unqualified_eq isArray (fun _ => rfl) source,
    ← unqualified_eq isPointer (fun _ => rfl) ty] at decays
  rw [Ty.assignable.eq_def] at assignable
  split at assignable
  · next is_int => simp_all [isScalar, isInteger]
  · next is_bool => simp_all [isScalar, isInteger]
  · next is_float is_float' => simp_all [isScalar, isFloat]
  · next is_pointer is_pointer' => simp_all [isScalar, isPointer]
  · next is_array is_pointer => simp_all [isArray, isPointer]
  · next is_array is_array' =>
    simp only [Bool.and_eq_true, beq_iff_eq] at assignable
    rw [is_array, is_array', assignable.1, assignable.2]
    exact ⟨rfl, rfl, rfl, rfl⟩
  · next is_struct is_struct' =>
    rw [is_struct, is_struct', beq_iff_eq.mp assignable]
    exact ⟨rfl, rfl, rfl, rfl⟩
  · next is_function is_pointer =>
    rw [is_function, is_pointer]
    exact ⟨by simp [size], rfl, rfl, rfl⟩
  · cases assignable

theorem isScalar_of_assignable (assignable : source.assignable ty = true)
    (scalar : source.isScalar = true) : ty.isScalar = true := by
  rw [← isScalar_unqualified source] at scalar
  rw [← isScalar_unqualified ty]
  rw [Ty.assignable.eq_def] at assignable
  split at assignable <;> simp_all [isScalar, isInteger, isFloat, isPointer]

theorem alike_of_isPointer : (ty : Ty) → ty.isPointer = true → Ty.u64.Alike ty
  | .pointer _, _ => ⟨by simp [u64, size, wordSize], rfl, rfl, rfl⟩
  | .const t, is_pointer =>
    (alike_of_isPointer t is_pointer).trans ⟨by simp only [size], rfl, rfl, rfl⟩

/-- The bytes of a `source` serve as those of a `ty`. -/
structure Serves (source ty : Ty) : Prop where
  size : source.size = ty.size
  bank : source.bank = ty.bank
  truth : ty.isBool = true → source.isBool = true
  plain : (source.isScalar && ty.isScalar) = false → source.Alike ty

def Regular (ty : Ty) : Prop :=
  ty.isScalar = true → ty.RegisterSized ∧ (ty.isFloat = true → 4 ≤ ty.size)

instance (ty : Ty) : Decidable ty.Regular := inferInstanceAs (Decidable (_ → _))

theorem registerSized_of_fitsRegister (fits : ty.fitsRegister = true) : ty.RegisterSized := by
  simp only [fitsRegister, Bool.and_eq_true, Bool.or_eq_true, beq_iff_eq] at fits
  simpa only [RegisterSized, or_assoc] using fits.2

theorem isFloat_of_bank (bank : ty.bank = .float) : ty.isFloat = true := by
  by_contra other
  simp [Ty.bank, other] at bank

theorem bank_of_isBool (truth : ty.isBool = true) : ty.bank = .int := by
  have shape : (ty : Ty) → ty.isBool = true → ty.isFloat = false := by
    intro ty
    induction ty using Ty.isBool.induct <;> simp_all [Ty.isBool, Ty.isFloat]
  simp [bank, shape ty truth]

theorem RegisterSized.float (sized : ty.RegisterSized) (wide : ty.isFloat = true → 4 ≤ ty.size)
    (bank : ty.bank = .float) : ty.size = 4 ∨ ty.size = 8 := by
  have := wide (isFloat_of_bank bank)
  rcases sized with h | h | h | h <;> omega

end Ty

theorem narrow_narrow (w : Word) {size large : Nat} (small : size ≤ 8) (le : size ≤ large)
    (first second : Bool) : narrow (narrow w large first) size second = narrow w size second := by
  have low : (narrow w large first).setWidth (size * 8) = w.setWidth (size * 8) := by
    apply BitVec.eq_of_getLsbD_eq
    intro i inside
    have within : i < 64 := by omega
    have within' : i < large * 8 := by omega
    cases first
    · simp [narrow, inside, within, within']
    · simp only [narrow, ↓reduceIte, BitVec.getLsbD_setWidth, BitVec.getLsbD_signExtend, inside,
        within, within', decide_true, Bool.true_and]
  simp only [narrow] at low ⊢
  rw [low]

namespace Hardware
variable {hw : Hardware} {w : Word}

def fitted (hw : Hardware) (ty : Ty) (w : Word) : Word :=
  match ty.bank with
  | .int => ty.canonicalBits w
  | .float => if ty.size = 4 then hw.double (hw.single w) else w

def converted (hw : Hardware) (source target : Ty) : Content → Content
  | .word w => .word (if source.isScalar && target.isScalar then hw.fitted target w else w)
  | .block bytes => .block bytes

theorem refloat_word (hw : Hardware) (w : Word) : hw.refloat 8 w = w := by
  simp [refloat, List.take_of_length_le, ofBytes_wordBytes]

theorem fitted_of_canonical (sized : ty.RegisterSized) (wide : ty.isFloat = true → 4 ≤ ty.size)
    (canonical : hw.Canonical ty w) : hw.fitted ty w = w := by
  unfold Canonical at canonical
  unfold fitted
  cases bank : ty.bank with
  | int => simpa only [bank] using canonical
  | float =>
    simp only [bank] at canonical ⊢
    rcases sized.float wide bank with four | eight
    · rw [four] at canonical ⊢
      exact canonical
    · simp [eight]

theorem reloaded_eq_fitted (sized : ty.RegisterSized) (wide : ty.isFloat = true → 4 ≤ ty.size)
    (truth : ty.isBool = true → ty.canonicalBits w = w) : hw.reloaded ty w = hw.fitted ty w := by
  unfold reloaded fitted
  cases bank : ty.bank with
  | int =>
    cases is_bool : ty.isBool with
    | true =>
      simp only [truth is_bool]
      exact narrow_of_canonical sized (truth is_bool)
    | false => exact (Ty.canonicalBits_eq_narrow sized is_bool w).symm
  | float =>
    rcases sized.float wide bank with four | eight
    · simp [four, refloat]
    · simp only [eight, refloat_word]
      rfl

theorem reloaded_canonicalBits (sized : ty.RegisterSized) (bank : ty.bank = .int) (w : Word) :
    hw.reloaded ty (ty.canonicalBits w) = ty.canonicalBits w := by
  simp only [reloaded, bank]
  exact narrow_of_canonical sized (Ty.canonicalBits_idem _ w)

theorem loaded_alike (alike : source.Alike ty) (m : Memory) (address : Word) :
    hw.loaded ty m address = hw.loaded source m address := by
  simp only [loaded, alike.bank, alike.size, alike.isSigned]

theorem read_alike (alike : source.Alike ty) (m : Memory) (address : Word) :
    hw.read ty m address = hw.read source m address := by
  simp only [read, Ty.RegisterSized, alike.size, loaded_alike alike]

section
variable (canonical : hw.Canonical source w)
include canonical

theorem Canonical.of_alike (alike : source.Alike ty) : hw.Canonical ty w := by
  have bits : source.canonicalBits w = ty.canonicalBits w := by
    unfold Ty.canonicalBits
    rw [alike.isBool, alike.size, alike.isSigned]
  simpa only [Canonical, alike.bank, alike.size, bits] using canonical

theorem Canonical.of_float (size : source.size = ty.size)
    (bank : source.bank = ty.bank) (float : ty.bank = .float) : hw.Canonical ty w := by
  simpa only [Canonical, bank, float, size] using canonical

theorem Canonical.of_isBool (bank : source.bank = ty.bank)
    (truth : ty.isBool = true → source.isBool = true) (is_bool : ty.isBool = true) :
    ty.canonicalBits w = w := by
  simp only [Canonical, bank, Ty.bank_of_isBool is_bool] at canonical
  rw [Ty.canonicalBits_of_isBool is_bool, ← Ty.canonicalBits_of_isBool (truth is_bool), canonical]

end

theorem loaded_converted (serves : source.Serves ty) (sized : ty.RegisterSized)
    (wide : ty.isFloat = true → 4 ≤ ty.size)
    (canonical : hw.Canonical source (hw.loaded source m address)) :
    hw.loaded ty m address = hw.fitted ty (hw.loaded source m address) := by
  cases bank : ty.bank with
  | int =>
    simp only [Canonical, serves.bank, bank] at canonical
    simp only [fitted, bank]
    cases is_bool : ty.isBool with
    | true =>
      have truth := serves.truth is_bool
      rw [Ty.canonicalBits_of_isBool is_bool, ← Ty.canonicalBits_of_isBool truth, canonical]
      simp only [loaded, serves.bank, bank, serves.size, Ty.isSigned_of_isBool _ is_bool,
        Ty.isSigned_of_isBool _ truth]
    | false =>
      rw [Ty.canonicalBits_eq_narrow sized is_bool]
      simp only [loaded, serves.bank, bank, serves.size, narrow_narrow _ sized.le le_rfl]
  | float =>
    have same : hw.loaded ty m address = hw.loaded source m address := by
      simp only [loaded, serves.bank, bank, serves.size]
    rw [same]
    exact (fitted_of_canonical sized wide (canonical.of_float serves.size serves.bank bank)).symm

theorem read_converted (serves : source.Serves ty) (regular : ty.Regular)
    (canonical : ∀ w, hw.read source m address = .word w → hw.Canonical source w) :
    hw.read ty m address = hw.converted source ty (hw.read source m address) := by
  cases scalar : source.isScalar && ty.isScalar with
  | false =>
    rw [read_alike (serves.plain scalar)]
    cases hw.read source m address <;> simp [converted, scalar]
  | true =>
    obtain ⟨_, target⟩ := Bool.and_eq_true_iff.mp scalar
    obtain ⟨sized, wide⟩ := regular target
    have sized' : source.RegisterSized := by rwa [Ty.RegisterSized, serves.size]
    have read_source : hw.read source m address = _ := read_of_registerSized sized' m address
    rw [read_of_registerSized sized, read_source]
    simp only [converted, scalar, ↓reduceIte, Content.word.injEq]
    exact loaded_converted serves sized wide (canonical _ read_source)

theorem reloaded_loaded (size : source.size = ty.size) (bank : source.bank = ty.bank)
    (sized : ty.RegisterSized) (canonical : hw.Canonical source (hw.loaded source m address)) :
    hw.reloaded ty (hw.loaded ty m address) = hw.loaded ty m address := by
  cases is_bank : ty.bank with
  | int => simp only [reloaded, loaded, is_bank, narrow_narrow _ sized.le le_rfl]
  | float =>
    have same : hw.loaded ty m address = hw.loaded source m address := by
      simp only [loaded, bank, is_bank, size]
    rw [same]
    exact reloaded_of_canonical sized (canonical.of_float size bank is_bank)

end Hardware

end RegisterBackend
