import RegisterBackend.Convention
import RegisterBackend.Proofs.Steps

/-!
The places of a signature. Each argument gets what the cursor passes over when it is placed, so no
two arguments share anything, and none reaches into the header.
-/
namespace RegisterBackend

open Convention List PassingClass

variable {before tys : List Ty} {bound i offset : Nat} {c : Cursor}
  {place : ArgumentPlace} {ty : Ty}

theorem alignUp_of_dvd {n align : Nat} (positive : 0 < align) (aligned : align ∣ n) :
    alignUp n align = n := by
  obtain ⟨k, rfl⟩ := aligned
  rw [alignUp, Nat.mul_add_div positive, Nat.div_eq_of_lt (by omega), Nat.add_zero, Nat.mul_comm]

theorem dvd_alignUp (n align : Nat) : align ∣ alignUp n align := Dvd.intro_left _ rfl

theorem PassingClass.fitsRegister_of_ne_memory (ty : Ty) (passed : ofTy ty ≠ .memory) :
    ty.fitsRegister = true := by
  by_contra wide
  simp [ofTy, wide] at passed

theorem PassingClass.bank_of_integer (is_integer : ofTy ty = .integer) : ty.bank = .int := by
  have fits := fitsRegister_of_ne_memory ty (by simp [is_integer])
  cases float : ty.isFloat with
  | true => simp [ofTy, fits, float] at is_integer
  | false => simp [Ty.bank, float]

theorem PassingClass.bank_of_float (is_float : ofTy ty = .float) : ty.bank = .float := by
  simp only [ofTy] at is_float
  split at is_float
  · next float => simp_all [Ty.bank]
  · split at is_float <;> cases is_float

namespace Convention

def span (ty : Ty) : Nat := alignUp (max (passedSize ty) 1) wordSize

theorem span_pos (ty : Ty) : 0 < span ty :=
  Nat.lt_of_lt_of_le (by omega) (le_alignUp (max (passedSize ty) 1) (by simp [wordSize]))

namespace Cursor

/-- The place is handed out while the cursor goes from `c` to `c'`. -/
def Passes (c c' : Cursor) (ty : Ty) : ArgumentPlace → Prop
  | .register r => ty.fitsRegister = true ∧ r.bank = ty.bank ∧ r.id.toNat < registerArguments
      ∧ match r.bank with
        | .int => c.ints ≤ r.id.toNat ∧ r.id.toNat < c'.ints
        | .float => c.floats ≤ r.id.toNat ∧ r.id.toNat < c'.floats
  | .stack offset => c.stack ≤ offset ∧ offset + span ty ≤ c'.stack ∧ wordSize ∣ offset

structure Precedes (c c' : Cursor) : Prop where
  ints : c.ints ≤ c'.ints
  floats : c.floats ≤ c'.floats
  stack : c.stack ≤ c'.stack
  aligned : wordSize ∣ c'.stack

theorem Passes.mono {c0 c' c1 : Cursor} (passes : c.Passes c' ty place) (before : c0.Precedes c)
    (after : c'.Precedes c1) : c0.Passes c1 ty place := by
  have := before.ints; have := before.floats; have := before.stack
  have := after.ints; have := after.floats; have := after.stack
  cases place with
  | stack offset =>
    obtain ⟨low, high, aligned⟩ := passes
    exact ⟨by omega, by omega, aligned⟩
  | register r =>
    obtain ⟨fits, bank, few, range⟩ := passes
    refine ⟨fits, bank, few, ?_⟩
    cases h : r.bank <;> simp only [h] at range ⊢ <;> omega

theorem take_passes (ty : Ty) (aligned : wordSize ∣ c.stack) :
    c.Passes (c.take (.ofTy ty) (passedSize ty)).2 ty (c.take (.ofTy ty) (passedSize ty)).1
      ∧ c.Precedes (c.take (.ofTy ty) (passedSize ty)).2 := by
  have on_stack : c.Passes (c.takeStack (passedSize ty)).2 ty (c.takeStack (passedSize ty)).1
      ∧ c.Precedes (c.takeStack (passedSize ty)).2 := by
    simp only [takeStack, alignUp_of_dvd (by simp [wordSize]) aligned, Passes]
    refine ⟨⟨le_rfl, le_rfl, aligned⟩, ⟨le_rfl, le_rfl, by simp, ?_⟩⟩
    exact Nat.dvd_add aligned (dvd_alignUp _ _)
  have small {n : Nat} (few : n < registerArguments) : (UInt8.ofNat n).toNat = n := by
    have : n < 256 := by simp only [registerArguments] at few; omega
    simpa using this
  cases cls : PassingClass.ofTy ty with
  | memory => exact on_stack
  | integer =>
    by_cases few : c.ints < registerArguments
    · have fits := PassingClass.fitsRegister_of_ne_memory ty (by simp [cls])
      have bank := bank_of_integer cls
      simp only [take, few, ↓reduceIte, Passes, Register.int, small few]
      exact ⟨⟨fits, bank.symm, trivial, le_rfl, by omega⟩, ⟨by simp, le_rfl, le_rfl, aligned⟩⟩
    · simpa [take, few] using on_stack
  | float =>
    by_cases few : c.floats < registerArguments
    · have fits := PassingClass.fitsRegister_of_ne_memory ty (by simp [cls])
      have bank := bank_of_float cls
      simp only [take, few, ↓reduceIte, Passes, Register.float, small few]
      exact ⟨⟨fits, bank.symm, trivial, le_rfl, by omega⟩, ⟨le_rfl, by simp, le_rfl, aligned⟩⟩
    · simpa [take, few] using on_stack

end Cursor

theorem length_placeArguments (tys : List Ty) (c : Cursor) :
    (placeArguments tys c).1.length = tys.length := by
  induction tys generalizing c with
  | nil => rfl
  | cons ty rest ih => simp [placeArguments, ih]

theorem placeArguments_precedes (tys : List Ty) (aligned : wordSize ∣ c.stack) :
    c.Precedes (placeArguments tys c).2 := by
  induction tys generalizing c with
  | nil => exact ⟨le_rfl, le_rfl, le_rfl, aligned⟩
  | cons ty rest ih =>
    obtain ⟨_, first⟩ := Cursor.take_passes ty aligned
    have second := ih first.aligned
    exact ⟨first.ints.trans second.ints, first.floats.trans second.floats,
      first.stack.trans second.stack, second.aligned⟩

theorem placeArguments_passes (aligned : wordSize ∣ c.stack)
    (member : (ty, place) ∈ tys.zip (placeArguments tys c).1) :
    c.Passes (placeArguments tys c).2 ty place := by
  induction tys generalizing c with
  | nil => simp at member
  | cons head rest ih =>
    obtain ⟨passes, first⟩ := Cursor.take_passes head aligned
    have second := placeArguments_precedes rest first.aligned
    simp only [placeArguments, zip_cons_cons, mem_cons, Prod.mk.injEq] at member
    obtain ⟨rfl, rfl⟩ | member := member
    · exact passes.mono ⟨le_rfl, le_rfl, le_rfl, aligned⟩ second
    · exact (ih first.aligned member).mono first ⟨le_rfl, le_rfl, le_rfl, second.aligned⟩

/-- The places share nothing; `first` comes before `second`. -/
def Apart (first second : Ty × ArgumentPlace) : Prop :=
  match first.2, second.2 with
  | .register r, .register q => r ≠ q
  | .stack offset, .stack next => offset + span first.1 ≤ next
  | _, _ => True

theorem placeArguments_apart (tys : List Ty) (aligned : wordSize ∣ c.stack) :
    (tys.zip (placeArguments tys c).1).Pairwise Apart := by
  induction tys generalizing c with
  | nil => simp
  | cons head rest ih =>
    obtain ⟨passes, first⟩ := Cursor.take_passes head aligned
    simp only [placeArguments, zip_cons_cons, pairwise_cons]
    refine ⟨fun later member => ?_, ih first.aligned⟩
    have passes' := placeArguments_passes first.aligned member
    obtain ⟨ty, place⟩ := later
    simp only [Apart]
    revert passes
    cases (c.take (.ofTy head) (passedSize head)).1 with
    | stack offset =>
      intro passes
      cases place with
      | register q => trivial
      | stack next => exact passes.2.1.trans passes'.1
    | register r =>
      intro passes
      cases place with
      | stack next => trivial
      | register q =>
        rintro rfl
        obtain ⟨_, _, _, range⟩ := passes
        obtain ⟨_, _, _, range'⟩ := passes'
        cases h : r.bank <;> simp only [h] at range range' <;> omega

end Convention

namespace CallLayout

theorem headerSize_aligned (result : ResultPlace) : wordSize ∣ headerSizeFor result := by
  cases result with
  | void => exact dvd_rfl
  | register r => exact dvd_rfl
  | memory => decide

theorem length_arguments (signature : Signature) :
    (ofSignature signature).arguments.length = signature.params.length :=
  length_placeArguments _ _

section
variable (signature : Signature)

theorem headerSize_le : (ofSignature signature).headerSize ≤ (ofSignature signature).argumentsEnd :=
  (placeArguments_precedes (c := .start _) signature.params (headerSize_aligned _)).stack

theorem argumentsEnd_aligned : wordSize ∣ (ofSignature signature).argumentsEnd :=
  (placeArguments_precedes (c := .start _) signature.params (headerSize_aligned _)).aligned

variable {signature}

theorem stack_argument
    (member : (ty, .stack offset) ∈ signature.params.zip (ofSignature signature).arguments) :
    (ofSignature signature).headerSize ≤ offset
      ∧ offset + Convention.span ty ≤ (ofSignature signature).argumentsEnd ∧ wordSize ∣ offset :=
  placeArguments_passes (c := .start _) (headerSize_aligned _) member

theorem register_argument {r : Register}
    (member : (ty, .register r) ∈ signature.params.zip (ofSignature signature).arguments) :
    ty.fitsRegister = true ∧ r.bank = ty.bank ∧ r.id.toNat < Convention.registerArguments := by
  obtain ⟨fits, bank, few, _⟩ := placeArguments_passes (c := .start _) (headerSize_aligned _) member
  exact ⟨fits, bank, few⟩

theorem typed_place {α : Type} {params : List α} {v : α}
    (member : (v, place) ∈ params.zip (ofSignature signature).arguments) :
    ∃ ty, (v, ty, place) ∈ params.zip (signature.params.zip (ofSignature signature).arguments) := by
  obtain ⟨i, at_i⟩ := List.mem_iff_getElem?.mp member
  rw [List.getElem?_zip_eq_some] at at_i
  have small : i < signature.params.length := by
    rw [← length_arguments signature]
    exact (List.getElem?_eq_some_iff.mp at_i.2).1
  refine ⟨signature.params[i], List.mem_iff_getElem?.mpr ⟨i, ?_⟩⟩
  rw [List.getElem?_zip_eq_some, List.getElem?_zip_eq_some]
  exact ⟨at_i.1, List.getElem?_eq_getElem small, at_i.2⟩

theorem arguments_apart (signature : Signature) :
    (signature.params.zip (ofSignature signature).arguments).Pairwise Convention.Apart :=
  placeArguments_apart (c := .start _) _ (headerSize_aligned _)

end

end CallLayout

namespace Convention

def rank (tys : List Ty) (cls : PassingClass) : Nat := (tys.map PassingClass.ofTy).count cls

/-- The registers of both banks have been handed out in order, as far as they last. -/
structure Cursor.Counts (c : Cursor) (before : List Ty) : Prop where
  ints : c.ints = min (rank before .integer) registerArguments
  floats : c.floats = min (rank before .float) registerArguments

theorem rank_concat (before : List Ty) (ty : Ty) (cls : PassingClass) :
    rank (before ++ [ty]) cls = rank before cls + if PassingClass.ofTy ty = cls then 1 else 0 := by
  simp [rank, count_singleton]

theorem Cursor.take_counts (counts : c.Counts before) (ty : Ty) :
    (c.take (.ofTy ty) (passedSize ty)).2.Counts (before ++ [ty])
      ∧ ∀ r, (c.take (.ofTy ty) (passedSize ty)).1 = .register r ↔ PassingClass.ofTy ty ≠ .memory
        ∧ rank before (.ofTy ty) < registerArguments
        ∧ r = ⟨ty.bank, UInt8.ofNat (rank before (.ofTy ty))⟩ := by
  obtain ⟨ints, floats⟩ := counts
  cases cls : PassingClass.ofTy ty with
  | memory =>
    refine ⟨⟨?_, ?_⟩, fun r => ?_⟩ <;> simp [take, takeStack, rank_concat, cls, ints, floats]
  | integer =>
    have bank := bank_of_integer cls
    by_cases few : rank before .integer < registerArguments
    · have same : c.ints = rank before .integer := by omega
      refine ⟨⟨?_, ?_⟩, fun r => ?_⟩
      · simp only [take, same, few, ↓reduceIte, rank_concat, cls]
        omega
      · simp [take, same, few, rank_concat, cls, floats]
      · simp [take, same, few, bank, Register.int, eq_comm]
    · have full : c.ints = registerArguments := by omega
      refine ⟨⟨?_, ?_⟩, fun r => ?_⟩
      · simp only [take, takeStack, full, Nat.lt_irrefl, ↓reduceIte, rank_concat, cls]
        omega
      · simp [take, takeStack, full, rank_concat, cls, floats]
      · simp [take, takeStack, full, few]
  | float =>
    have bank := bank_of_float cls
    by_cases few : rank before .float < registerArguments
    · have same : c.floats = rank before .float := by omega
      refine ⟨⟨?_, ?_⟩, fun r => ?_⟩
      · simp [take, same, few, rank_concat, cls, ints]
      · simp only [take, same, few, ↓reduceIte, rank_concat, cls]
        omega
      · simp [take, same, few, bank, Register.float, eq_comm]
    · have full : c.floats = registerArguments := by omega
      refine ⟨⟨?_, ?_⟩, fun r => ?_⟩
      · simp [take, takeStack, full, rank_concat, cls, ints]
      · simp only [take, takeStack, full, Nat.lt_irrefl, ↓reduceIte, rank_concat, cls]
        omega
      · simp [take, takeStack, full, few]

theorem placeArguments_register (counts : c.Counts before)
    (at_i : (tys.zip (placeArguments tys c).1)[i]? = some (ty, place)) (r : Register) :
    place = .register r ↔ PassingClass.ofTy ty ≠ .memory ∧ rank (before ++ tys.take i)
    (.ofTy ty) < registerArguments
      ∧ r = ⟨ty.bank, UInt8.ofNat (rank (before ++ tys.take i) (.ofTy ty))⟩ := by
  induction tys generalizing c before i with
  | nil => simp at at_i
  | cons head rest ih =>
    obtain ⟨counts', first⟩ := Cursor.take_counts counts head
    cases i with
    | zero =>
      simp only [placeArguments, zip_cons_cons, getElem?_cons_zero, Option.some.injEq,
        Prod.mk.injEq] at at_i
      obtain ⟨rfl, rfl⟩ := at_i
      simpa using first r
    | succ i => simpa using ih counts' (by simpa [placeArguments] using at_i)

end Convention

namespace CallLayout

def stackBytes (signature : Signature) : Nat :=
  ((signature.params.zip (ofSignature signature).arguments).map fun (ty, place) =>
    match place with
    | .register _ => 0
    | .stack _ => alignUp ty.size wordSize).sum

variable {signature : Signature}

theorem size_le_span (total : stackBytes signature < bound) (small : bound ≤ 2 ^ 32)
    (member : (ty, .stack offset) ∈ signature.params.zip (ofSignature signature).arguments) :
    ty.size ≤ Convention.span ty := by
  have part : alignUp ty.size wordSize ≤ stackBytes signature :=
    le_sum_of_mem (mem_map.mpr ⟨_, member, rfl⟩)
  have whole : ty.size ≤ alignUp ty.size wordSize := le_alignUp _ (by decide)
  have kept : Convention.passedSize ty = ty.size := Nat.mod_eq_of_lt (by omega)
  rw [Convention.span, kept]
  exact (le_max_left _ _).trans (le_alignUp _ (by decide))

theorem result_memory_iff (signature : Signature) : (ofSignature signature).result = .memory ↔
    signature.result.isVoid = false
    ∧ ¬(signature.result.isScalar = true ∧ signature.result.fitsRegister = true)
      ∧ ¬(signature.result.isStruct = true ∧ signature.result.fitsRegister = true) := by
  simp only [ofSignature, placeResult]
  cases signature.result.isVoid <;> cases fits : signature.result.fitsRegister <;>
    cases signature.result.isStruct <;> cases float : signature.result.isFloat <;>
    cases int : signature.result.isInteger <;> cases ptr : signature.result.isPointer <;>
    simp [PassingClass.ofTy, Ty.isScalar, fits, float, int, ptr, resultRegister?]

/-- No two locations of a signature overlap. -/
theorem locations_disjoint (signature : Signature) (total : stackBytes signature < 2 ^ 32 - 16) :
    let layout := ofSignature signature
    let located := signature.params.zip layout.arguments
    layout.arguments.length = signature.params.length
    ∧ (∀ {i : Nat} {ty : Ty} {place : ArgumentPlace}, located[i]? = some (ty, place) →
        (∀ r, place = .register r ↔ PassingClass.ofTy ty ≠ .memory
          ∧ Convention.rank (signature.params.take i) (.ofTy ty) < 6
          ∧ r = ⟨ty.bank, UInt8.ofNat (Convention.rank (signature.params.take i) (.ofTy ty))⟩)
        ∧ (∀ r, place = .register r → r.bank = ty.bank ∧ r.id.toNat < 6)
        ∧ ∀ offset, place = .stack offset → 8 ∣ offset ∧ layout.headerSize ≤ offset
          ∧ offset + ty.size ≤ layout.argumentsEnd)
    ∧ (∀ {i j : Nat} {ty ty' : Ty}, i < j →
        (∀ {r q}, located[i]? = some (ty, .register r) →
          located[j]? = some (ty', .register q) → r ≠ q)
        ∧ ∀ {offset next}, located[i]? = some (ty, .stack offset) →
          located[j]? = some (ty', .stack next) → offset < next ∧ offset + ty.size ≤ next)
    ∧ 8 ∣ layout.argumentsEnd
    ∧ layout.headerSize = (if layout.result = .memory then 16 else 8)
    ∧ (layout.result = .memory ↔ signature.result.isVoid = false
        ∧ ¬(signature.result.isScalar = true ∧ signature.result.fitsRegister = true)
        ∧ ¬(signature.result.isStruct = true ∧ signature.result.fitsRegister = true)) := by
  intro layout located
  have covered {ty : Ty} {offset : Nat} (member : (ty, .stack offset) ∈ located) :
      ty.size ≤ Convention.span ty := size_le_span total (by omega) member
  refine ⟨length_arguments signature, ?_, ?_, argumentsEnd_aligned signature, ?_,
    result_memory_iff signature⟩
  · intro i ty place at_i
    have member := List.mem_of_getElem? at_i
    refine ⟨fun r => ?_, ?_, ?_⟩
    · have counts : (Convention.Cursor.start layout.headerSize).Counts [] := ⟨rfl, rfl⟩
      exact placeArguments_register counts at_i r
    · rintro r rfl
      exact (register_argument member).2
    · rintro offset rfl
      obtain ⟨low, high, aligned⟩ := stack_argument member
      exact ⟨aligned, low, (Nat.add_le_add_left (covered member) _).trans high⟩
  · intro i j ty ty' less
    have apart {place place' : ArgumentPlace} (at_i : located[i]? = some (ty, place))
        (at_j : located[j]? = some (ty', place')) : Convention.Apart (ty, place) (ty', place') := by
      obtain ⟨small, at_i⟩ := List.getElem?_eq_some_iff.mp at_i
      obtain ⟨small', at_j⟩ := List.getElem?_eq_some_iff.mp at_j
      have pair := List.pairwise_iff_getElem.mp (arguments_apart signature) i j small small' less
      rwa [at_i, at_j] at pair
    refine ⟨fun at_i at_j => apart at_i at_j, fun {offset next} at_i at_j => ?_⟩
    have before : offset + Convention.span ty ≤ next := apart at_i at_j
    have := covered (List.mem_of_getElem? at_i)
    have := span_pos ty
    omega
  · show headerSizeFor (Convention.placeResult signature.result) = _
    cases placed : Convention.placeResult signature.result <;>
      simp [layout, ofSignature, placed, headerSizeFor, Convention.returnPointerOffset, wordSize]

def mixedSignature : Signature :=
  ⟨replicate 7 .u64 ++ [.float 8, .array .u8 12], .struct "P" [("a", .u64), ("b", .u64)]⟩

/-- The seventh integer and the array lie behind each other on the stack. -/
theorem locations_disjoint_mixed :
    let located := mixedSignature.params.zip (ofSignature mixedSignature).arguments
    stackBytes mixedSignature < 2 ^ 32 - 16 ∧ located[6]? = some (.u64, .stack 16)
      ∧ located[8]? = some (.array .u8 12, .stack 24) ∧ 16 + Ty.u64.size ≤ 24 := by
  have seventh : (mixedSignature.params.zip (ofSignature mixedSignature).arguments)[6]?
      = some (.u64, .stack 16) := by decide +kernel
  have last : (mixedSignature.params.zip (ofSignature mixedSignature).arguments)[8]?
      = some (.array .u8 12, .stack 24) := by decide +kernel
  have total : stackBytes mixedSignature < 2 ^ 32 - 16 := by decide +kernel
  obtain ⟨_, _, apart, _⟩ := locations_disjoint mixedSignature total
  exact ⟨total, seventh, last, ((apart (by decide)).2 seventh last).2⟩

end CallLayout

end RegisterBackend
