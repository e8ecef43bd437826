import RegisterBackend.Proofs.Arithmetic
import RegisterBackend.Proofs.Switches

/-!
Integer constants. A pattern gets the same canonical form when it is compiled and when it runs, and
a constant that is narrowed is warned of exactly if the new type cannot hold its number.
-/
namespace RegisterBackend

open Gen

namespace Ty
variable {ty source target : Ty} {w : Word} {m n : Int}

/-- The integers of a type; truth values are zero and one. -/
def numbers (ty : Ty) : Set Int :=
  if ty.isBool then Set.Ico 0 2
  else if ty.isSigned then Set.Ico (-2 ^ (ty.size * 8 - 1)) (2 ^ (ty.size * 8 - 1))
  else Set.Ico 0 (2 ^ (ty.size * 8))

/-- The integer that the low bytes of a word stand for. -/
def meaning (ty : Ty) (w : Word) : Int :=
  if ty.isSigned then (w.setWidth (ty.size * 8)).toInt else (w.setWidth (ty.size * 8)).toNat

theorem meaning_modEq (ty : Ty) (w : Word) : ty.meaning w ≡ w.toNat [ZMOD 2 ^ (ty.size * 8)] := by
  have low : ((w.setWidth (ty.size * 8)).toNat : Int) ≡ w.toNat [ZMOD 2 ^ (ty.size * 8)] := by
    rw [BitVec.toNat_setWidth]
    push_cast
    exact Int.mod_modEq _ _
  unfold meaning
  split
  · refine .trans ?_ low
    rw [BitVec.toInt_eq_toNat_bmod]
    exact_mod_cast Int.bmod_emod
  · exact low

theorem numberOf_modEq (ty : Ty) (w : Word) : ty.numberOf w ≡ w.toNat [ZMOD 2 ^ 64] := by
  unfold numberOf
  split
  · rw [BitVec.toInt_eq_toNat_bmod]
    exact_mod_cast Int.bmod_emod
  · rfl

theorem meaning_mem_numbers (integer : ty.isBool = false) (w : Word) :
    ty.meaning w ∈ ty.numbers := by
  rw [numbers, integer, meaning]
  simp only [Bool.false_eq_true, ↓reduceIte]
  split
  · exact ⟨BitVec.le_toInt _, BitVec.toInt_lt⟩
  · exact ⟨by positivity, by exact_mod_cast (w.setWidth (ty.size * 8)).isLt⟩

/-- Numbers of a type that leave the same remainder are the same. -/
theorem eq_of_modEq (pos : 0 < ty.size) (integer : ty.isBool = false) (mem : m ∈ ty.numbers)
    (mem' : n ∈ ty.numbers) (same : m ≡ n [ZMOD 2 ^ (ty.size * 8)]) : m = n := by
  have double : (2 : Int) ^ (ty.size * 8) = 2 * 2 ^ (ty.size * 8 - 1) := by
    rw [← pow_succ', Nat.sub_add_cancel (by omega)]
  refine sub_eq_zero.mp (Int.eq_zero_of_abs_lt_dvd same.symm.dvd ?_)
  rw [abs_lt]
  cases signed : ty.isSigned <;>
    simp only [numbers, integer, signed, Bool.false_eq_true, ↓reduceIte,
      Set.mem_Ico] at mem mem' <;> omega

theorem canonicalBits_eq_fitted (integer : ty.isBool = false) (w : Word) :
    ty.canonicalBits w = ty.fitted w := by
  rw [canonicalBits, if_neg (by simp [integer]), fitted, wordSize]
  by_cases narrow : 0 < ty.size ∧ ty.size < 8
  · rw [if_neg (by omega), if_pos narrow]
    rfl
  · rw [if_pos (by omega), if_neg narrow]

theorem numberOf_canonicalBits (pos : 0 < ty.size) (le : ty.size ≤ 8)
    (integer : ty.isBool = false) (w : Word) : ty.numberOf (ty.canonicalBits w) = ty.meaning w := by
  have narrowed : ty.canonicalBits w = Word.narrow w ty.size ty.isSigned := by
    rw [canonicalBits_eq_fitted integer, fitted]
    split
    · rfl
    · rw [show ty.size = 8 by omega, narrow_word]
  have width : ty.size * 8 ≤ 64 := by omega
  rw [narrowed, numberOf, meaning, Word.narrow]
  split
  · exact BitVec.toInt_signExtend_of_le width
  · rw [BitVec.toNat_setWidth_of_le width]

theorem canonicalBits_modEq (pos : 0 < ty.size) (le : ty.size ≤ 8)
    (integer : ty.isBool = false) (w : Word) :
    ((ty.canonicalBits w).toNat : Int) ≡ w.toNat [ZMOD 2 ^ (ty.size * 8)] := by
  have whole :=
    (ty.numberOf_modEq (ty.canonicalBits w)).of_dvd (pow_dvd_pow 2 (show ty.size * 8 ≤ 64 by omega))
  rw [numberOf_canonicalBits pos le integer] at whole
  exact whole.symm.trans (ty.meaning_modEq w)

theorem numberOf_of_canonical (pos : 0 < ty.size) (le : ty.size ≤ 8)
    (canonical : ty.canonicalBits w = w) : ty.numberOf w = ty.meaning w := by
  cases truth : ty.isBool with
  | false => rw [← numberOf_canonicalBits pos le truth, canonical]
  | true =>
    rw [canonicalBits_of_isBool truth] at canonical
    rw [numberOf, meaning, ty.isSigned_of_isBool truth, ty.size_of_isBool truth, ← canonical]
    cases w != 0 <;> rfl

/-- A constant keeps its number in another type exactly if that type has the number. -/
theorem keepsConstant_iff (pos : 0 < target.size) (le : target.size ≤ 8) (w : Word) :
    source.keepsConstant target w = true ↔ source.numberOf w ∈ target.numbers := by
  have whole := source.numberOf_modEq w
  rw [keepsConstant, beq_iff_eq]
  cases truth : target.isBool with
  | false =>
    rw [numberOf_canonicalBits pos le truth]
    refine ⟨fun same => same ▸ meaning_mem_numbers truth w, fun mem => ?_⟩
    refine eq_of_modEq pos truth (meaning_mem_numbers truth w) mem
      ((target.meaning_modEq w).trans ?_)
    exact (whole.of_dvd (pow_dvd_pow 2 (by omega))).symm
  | true =>
    rw [canonicalBits_of_isBool truth, numbers, truth, if_pos rfl, Set.mem_Ico, numberOf,
      target.isSigned_of_isBool truth]
    by_cases zero : w = 0
    · subst zero
      cases signed : source.isSigned <;> simp [numberOf, signed, Word.ofBool]
    · have nonzero : source.numberOf w ≠ 0 := by
        unfold numberOf
        split
        · exact fun is_zero => zero (BitVec.toInt_inj.mp (by simpa using is_zero))
        · simpa [← BitVec.toNat_inj] using zero
      rw [bne_iff_ne.mpr zero]
      have one : (Word.ofBool true).toNat = 1 := rfl
      rw [if_neg Bool.false_ne_true, one]
      omega

end Ty

/-- The step says `cause`: as an error if warnings are escalated, else it notes it and goes on. -/
def Build.Warns (x : Build Unit) (b : BodyBuilder) (cause : Caution) : Prop :=
  outcome x b = if b.context.diagnostics.escalate
    then (.error (.failed (.escalated b.loc cause)), b)
    else (.ok (), { b with
      context.diagnostics.warnings := b.context.diagnostics.warnings ++ [⟨b.loc, cause⟩] })

theorem Build.checkUse_narrowed {source target : Ty} {value : Value} {w : Word}
    (constant : value.constant? = some w) (integer : source.isInteger = true)
    (integer' : target.isInteger = true) (narrower : target.size < source.size) (usage : Usage)
    (b : BodyBuilder) : (source.keepsConstant target w = true →
      outcome (checkUse value source target usage) b = (.ok (), b))
    ∧ (¬source.keepsConstant target w = true →
      Warns (checkUse value source target usage) b (.narrowing source target usage)) := by
  have pointees : source.pointeesDiffer target = false := by
    rw [Ty.pointeesDiffer, Ty.pointee?_of_isInteger integer]
  have narrows : source.narrows target (some w) = !source.keepsConstant target w := by
    simp [Ty.narrows, integer, integer', narrower]
  unfold checkUse Ty.caution?
  rw [constant, narrows, pointees]
  refine ⟨fun keeps => ?_, fun loses => ?_⟩
  · rw [keeps]
    rfl
  · rw [Bool.not_eq_true] at loses
    rw [loses, Warns]
    change outcome (inModule (Module.warn b.loc _)) b = _
    rw [outcome_inModule, Module.outcome_warn]
    cases escalates : b.context.diagnostics.escalate <;> simp [Diagnostics.warn, escalates]

/-- Constants are brought into the form of their type as running code does it, and narrowing one is
warned of exactly if the new type does not have its number. -/
theorem narrowing_exact :
    (∀ ty : Ty, ty.isInteger = true → ty.isBool = false → 1 ≤ ty.size → ty.size ≤ 8 →
      (∀ r c, r.bank = .int → ∃ emitted, Runs (canonicalize r ty) c () (c.appended emitted)
        ∧ ∀ hw p s, Instr.executeAll hw p emitted s
        = some (s.set r (ty.canonicalBits (s.registers r))))
      ∧ ∀ w, ty.canonicalBits (ty.canonicalBits w) = ty.canonicalBits w
        ∧ (ty.canonicalBits w).toNat ≡ w.toNat [MOD 2 ^ (8 * ty.size)])
    ∧ ∀ source target : Ty, source.isInteger = true → 1 ≤ source.size → source.size ≤ 8 →
      target.isInteger = true → 1 ≤ target.size → target.size ≤ 8 →
      ∀ w, source.canonicalBits w = w →
      (source.keepsConstant target w = true ↔ source.meaning w ∈ target.numbers)
      ∧ ∀ value usage b, value.constant? = some w → target.size < source.size →
        let check := Build.checkUse value source target usage
        (source.meaning w ∈ target.numbers → outcome check b = (.ok (), b))
        ∧ (source.meaning w ∉ target.numbers →
          Build.Warns check b (.narrowing source target usage)) := by
  refine ⟨fun ty _ integer pos le => ⟨fun r c bank => ?_, fun w => ⟨ty.canonicalBits_idem w, ?_⟩⟩,
    fun source target integer pos le integer' pos' le' w canonical => ?_⟩
  · obtain ⟨c', run⟩ : ∃ c', Runs (canonicalize r ty) c () c' := by
      unfold canonicalize
      split
      · split <;> exact ⟨_, rfl⟩
      · exact ⟨_, rfl⟩
    obtain ⟨emitted, rfl, _, executes⟩ := runs_canonicalize_fitted bank run
    exact ⟨emitted, run, fun hw p s => by rw [executes, Ty.canonicalBits_eq_fitted integer]⟩
  · have same := Ty.canonicalBits_modEq pos le integer w
    rw [Nat.mul_comm]
    exact_mod_cast same
  · rw [← Ty.numberOf_of_canonical pos le canonical, ← Ty.keepsConstant_iff pos' le']
    exact ⟨Iff.rfl, fun value usage b constant narrower =>
      Build.checkUse_narrowed constant integer integer' narrower usage b⟩

end RegisterBackend
