import RegisterBackend.Lowering.Function
import RegisterBackend.Proofs.Discipline
import RegisterBackend.Proofs.Places

/-!
Every rule of lowering, followed once. A `Course` is a property of steps that passes from the parts
to the whole. It may count uses that are spent, and say which instructions may be written, which
constructs refused and which values placed; a rule asks for those that it needs.
-/
namespace RegisterBackend

open Bool List BitVec CallLayout

variable {fault : Fault}

inductive Manner where
  /-- What is still needed stays within reach. Values get registers only if the step `binds`. -/
  | careful (binds : Bool)
  /-- On the way out of a function nothing is needed any more. -/
  | parting
  deriving DecidableEq

namespace Fault

def atStart : Fault → Bool
  | .failed (.inconsistent (.occupiedAtStart _ _ _)) => true
  | _ => false

def isRoutine : Fault → Bool
  | .failed (.unsupported _) => false
  | .failed (.inconsistent (.occupiedAtStart _ _ _)) => false
  | .failed (.inconsistent (.referenceUnderflow _ _)) => false
  | _ => true

theorem atStart_of_isRoutine (routine : fault.isRoutine = true) : fault.atStart = false := by
  unfold isRoutine at routine
  split at routine <;> simp_all [atStart]

end Fault

/-- The instruction divides by an immediate that is zero, or an address that may be. -/
def Instr.dividesByZero : Instr → Bool
  | .aluImm op _ (.value imm) => op.isDivision && imm == 0
  | .aluImm op _ _ => op.isDivision
  | _ => false

/-- The instruction leaves the stack pointer alone and goes on to the next one. -/
def Instr.isPlain : Instr → Bool
  | .label _ => false
  | .data _ _ => false
  | .halt => false
  | .stackAdjust _ => false
  | .push _ => false
  | .pushImm _ => false
  | .jump _ => false
  | .jumpIf _ _ _ => false
  | .call _ => false
  | .callPtr _ => false
  | .ret => false
  | .callExternal _ => false
  | i => !i.dividesByZero

theorem Ty.size_lt_of_isMeasurable : {ty : Ty} → ty.isMeasurable = true → ty.size < 2 ^ 64
  | .array _ _, measured => of_decide_eq_true (and_eq_true_iff.mp measured).2
  | .const t, measured => @size_lt_of_isMeasurable t measured
  | .void, measured | .bool, measured | .int _ _, measured | .float _, measured
  | .pointer _, measured | .struct _ _, measured | .function _ _, measured =>
    of_decide_eq_true measured

/-- Operands, refused by construction, for which the rule for integers would divide by zero. -/
def BinaryOp.Risks (op : BinaryOp) (left right : Ty) (divisor : Option Word) : Prop :=
  op.isDivision = true ∧ (left.isPointer = true ∨ right.isPointer = true ∨ divisor = some 0)

def Operation.result? : Operation → Option ValueId
  | .binary _ _ _ result inPlace => if inPlace then none else some result
  | .compare _ _ _ result => some result
  | .unary _ _ result => some result
  | .convert _ result => some result
  | .call _ _ result => result
  | .addressOf _ result => some result
  | .dereference _ result => some result
  | .member _ _ result => some result
  | .functionAddress _ result => some result
  | _ => none

/-- The value that the operation may put into a slot of its own. -/
def Operation.slotResult? : Operation → Option ValueId
  | .call _ _ result => result
  | .dereference _ result => some result
  | _ => none

def Operation.manner (operation : Operation) : Manner :=
  if operation.isReturn then .parting else .careful true

namespace Gen

/-- An operation of a body with what follows every operation, the check left out. -/
def lowerUnchecked (functions : Array Declaration) (decl : Declaration) (item : BodyItem)
    (isLast : Bool) : Gen Unit := do
  if !item.operation.isComment then comment item.operation.text
  setLocation item.loc
  lowerOperation functions decl isLast item.operation
  record (·.addOperation item.operation.kind)
  releaseEscaped

/-- How memory is copied unless both places are in frames. -/
def copyThrough (target source : Position) (ty : Ty) : Gen Unit := do
  if ty.fitsRegister && !target.sameKind source then
    let r ← obtainRegister ty.bank
    holding r do
      load r source ty
      store r target ty
  else
    let dst ← obtainRegister .int
    holding dst do
      loadAddress dst target
      let src ← obtainRegister .int
      holding src do
        loadAddress src source
        emit (.copyMem dst src (BitVec.ofNat 64 ty.size))

/-- A step that can be measured is a number of bytes that is not zero in a word. -/
theorem ofNat_stepSize_ne_zero {ty : Ty} (measured : ty.pointee?.all Ty.isMeasurable = true) :
    BitVec.ofNat 64 (stepSize ty) ≠ 0 := by
  have positive : 0 < stepSize ty ∧ stepSize ty < 2 ^ 64 := by
    unfold stepSize
    cases is_pointee : ty.pointee? with
    | none => decide
    | some pointee =>
      rw [is_pointee] at measured
      have small : pointee.size < 2 ^ 64 := Ty.size_lt_of_isMeasurable measured
      exact ⟨lt_max_of_lt_right Nat.one_pos, max_lt small (by decide)⟩
  intro none
  have : (BitVec.ofNat 64 (stepSize ty)).toNat = 0 := by rw [none]; rfl
  rw [BitVec.toNat_ofNat, Nat.mod_eq_of_lt positive.2] at this
  omega

theorem useInRegister_eq (v : ValueId) : useInRegister v = do
    let r ← variableRegister v
    discard (consume v)
    return r := by
  rw [useInRegister, variableRegister, bind_assoc]
  refine bind_congr fun value => ?_
  cases value.register? <;> simp only [bind_assoc, pure_bind]

def pointers : Callee → List ValueId
  | .direct _ => []
  | .indirect pointer => [pointer]

/-- What a course goes by, apart from the steps it holds of. -/
structure Signs where
  /-- What type and what constant a value may turn out to have when it is looked up. -/
  sees : ValueId → Ty → Option Word → Prop
  ready : Context → StackSlot → Prop
  isVariable : Context → ValueId → Prop
  isWide : Context → ValueId → Prop
  admits : ValueId → Prop
  /-- Results may be given slots. -/
  places : Prop
  writes : Instr → Prop
  refuses : Unsupported → Prop

structure Known (S : Signs) (c : Context) (v : ValueId) (value : Value) : Prop where
  found : c.values.get? v = some value
  sees : S.sees v value.ty value.constant?
  ready : ∀ {slot}, value.position = some (.stack slot) → S.ready c slot
  isVariable : value.isNamed = true → S.isVariable c v
  isWide : value.ty.fitsRegister = false → S.isWide c v
  admits : value.isNamed = true → value.ty.fitsRegister = true → S.admits v

structure Course extends Signs where
  goes : {α : Type} → Manner → Context → List ValueId → Gen α → Prop
  later : Context → Context → Prop
  writes_plain : ∀ {i}, i.isPlain = true → writes i
  ready_later : ∀ {c d slot}, later c d → ready c slot → ready d slot
  isVariable_later : ∀ {c d v}, later c d → isVariable c v → isVariable d v
  isWide_later : ∀ {c d v}, later c d → isWide c v → isWide d v
  goes_pure : ∀ {α m c} (a : α), goes m c [] (pure a : Gen α)
  goes_stop : ∀ {α m c u fault}, fault.isRoutine = true → goes m c u (throw fault : Gen α)
  goes_refuse : ∀ {α m c u cause}, refuses cause → goes m c u (unsupported cause : Gen α)
  goes_bind : ∀ {α β m c u u'} {x : Gen α} {f : α → Gen β}, goes m c u x →
    (∀ {a d}, later c d → goes m d u' (f a)) → goes m c (u ++ u') (x >>= f)
  goes_perm : ∀ {α m c u u'} {x : Gen α}, goes m c u x → u.Perm u' → goes m c u' x
  goes_holding : ∀ {α m c u r} {block : Gen α}, (∀ {d}, later c d → goes m d u block) →
    goes m c u (holding r block)
  goes_valueOf : ∀ {α m c u v} {f : Value → Gen α},
    (∀ {d value}, later c d → Known toSigns d v value → goes m d u (f value)) →
      goes m c u (valueOf v >>= f)
  goes_overOccupied : ∀ {α m c u} {f : Register × ValueId → PUnit → Gen (ForInStep PUnit)}
    {g : PUnit → Gen α}, (∀ {pair u c}, goes m c [] (f pair u)) → (∀ {a d}, goes m d u (g a)) →
    goes m c u (do
      let a ← forIn (← get).registers.allOccupied PUnit.unit f
      g a)
  goes_emit : ∀ {m c i}, writes i → i.isRemark = false →
    (∀ slot, i.Reads c.code.back? slot → ready c slot) →
    goes m c [] (emit i)
  goes_copyMem : ∀ {m c dst src source size}, (∀ {slot}, source = .stack slot → ready c slot) →
    goes m c [] (do
      loadAddress src source
      emit (.copyMem dst src size))
  goes_loadAddress : ∀ {m c} dst pos, goes m c [] (loadAddress dst pos)
  goes_loadConstant : ∀ {m c} dst bits, goes m c [] (loadConstant dst bits)
  goes_touch : ∀ {m c} v, goes m c [] (touch v)
  goes_touchAndMark : ∀ {m c} v, goes m c [] (do touch v; markLocation v)
  goes_consume : ∀ {m c} v, goes m c [v] (consume v)
  goes_setDirty : ∀ {m c} v dirty, goes m c [] (updateValue v (·.setDirty dirty))
  goes_escape : ∀ {m c} v, goes m c [] (updateValue v (·.setEscaped true))
  goes_bindRegister : ∀ {m c} r {v}, m ≠ .careful false → admits v → goes m c [] (bindRegister r v)
  /-- What can be loaded into a register can be bound to it. -/
  goes_loadAndBind : ∀ {α m c u r v} {next : Gen α}, m ≠ .careful false →
    goes m c [] (loadValue r v) →
    (∀ {d}, goes m d u next) → goes m c u (do
      loadValue r v
      bindRegister r v
      next)
  /-- The last use of a value takes its register. -/
  goes_giveAway : ∀ {α m c r v value} {next : Gen α}, c.values.get? v = some value →
    value.register? = some r → value.references = 1 → (∀ {d}, later c d → goes m d [] next) →
    goes m c [v] (do
      discard (consume v)
      discard (unbindRegister r)
      next)
  /-- A variable that is overwritten leaves its register. -/
  goes_retake : ∀ {α m c u r v value} {next : Gen α}, c.values.get? v = some value →
    value.register? = some r → isVariable c v → (∀ {d}, goes m d u next) → goes m c u (do
      updateValue v (·.setDirty false)
      discard (unbindRegister r)
      next)
  goes_homeOf : ∀ {α m c u v} {f : Position → Gen α},
    (∀ {home d}, later c d → (∀ {slot}, home = .stack slot → ready d slot) → goes m d u (f home)) →
    goes m c u (homeOf v >>= f)
  /-- A variable too wide for registers is at home once it was written there. -/
  goes_rehome : ∀ {α m c u u' v} {x : Position → Gen Unit} {y : Gen Unit}
    {next : Gen α}, isWide c v →
    (∀ {home d}, goes m d u (x home)) → (∀ {d}, goes m d u' y) → (∀ {d}, goes m d [] next) →
    goes m c (u ++ u') (do
      let home ← homeOf v
      x home
      y
      setPosition v (some home)
      next)
  goes_place : ∀ {m c v slot}, places → goes m c [] (setPosition v (some (.stack slot)))
  goes_allocateSlot : ∀ {m c} size, goes m c [] (allocateSlot size)
  goes_obtainRegister : ∀ {m c} bank, goes m c [] (obtainRegister bank)
  goes_store : ∀ {m c} src target ty, goes m c [] (store src target ty)
  goes_spill : ∀ {m c r v value}, c.values.get? v = some value → value.isNamed = false →
    value.position = some (.register r) → goes m c [] (spill v r)
  goes_flush : ∀ {m c} v, goes m c [] (flush v)
  goes_flushAll : ∀ {m c}, goes m c [] flushAll
  goes_releaseEscaped : ∀ {m c}, goes m c [] releaseEscaped
  goes_vacateAll : ∀ {m c}, goes m c [] vacateAll
  goes_displace : ∀ {c} r, goes .parting c [] (displace r)
  goes_dropReferenced : ∀ {m c}, goes m c [] (dropAll true)
  goes_dropLast : ∀ {c}, goes .parting c [] (dropAll false)
  /-- Between emptying the registers and dropping their contents nothing is bound. -/
  goes_emptied : ∀ {α β m c u} {x : Gen α} {f : α → Gen β}, (∀ {m c}, goes m c u x) →
    (∀ {a d}, goes m d [] (f a)) → goes m c u (do
      vacateAll
      let a ← x
      dropAll false
      f a)
  goes_addCall : ∀ {m c}, goes m c [] (record .addCall)
  goes_addOperation : ∀ {m c} kind, goes m c [] (record (·.addOperation kind))
  goes_comment : ∀ {m c} text, goes m c [] (comment text)
  goes_setLocation : ∀ {m c} loc, goes m c [] (setLocation loc)

namespace Course

variable {α β : Type} {m : Manner} {c : Context} {u u' : List ValueId}
  {v target value pointer result : ValueId} {r dst : Register} {ty targetTy : Ty} {p : Prop}
  (K : Course) {i : Instr} {handle : Word}

theorem goes_plain (quiet : i.isQuiet = true) (plain : i.isPlain = true) : K.goes m c [] (emit i) :=
  K.goes_emit (K.writes_plain plain) (Instr.not_isRemark_of_isQuiet quiet)
    fun slot reads => (Instr.not_reads_of_isQuiet quiet _ slot reads).elim

theorem goes_quiet (quiet : i.isQuiet = true) (legal : K.writes i) : K.goes m c [] (emit i) :=
  K.goes_emit legal (Instr.not_isRemark_of_isQuiet quiet)
    fun slot reads => (Instr.not_reads_of_isQuiet quiet _ slot reads).elim

section
variable {x : Gen α} {f : α → Gen β}

theorem goes_then (first : K.goes m c u x) (rest : ∀ {a c'}, K.goes m c' u' (f a)) :
    K.goes m c (u ++ u') (x >>= f) := K.goes_bind first fun _ => rest

theorem goes_after (first : K.goes m c [] x) (rest : ∀ {a c'}, K.later c c' → K.goes m c' u (f a)) :
    K.goes m c u (x >>= f) := K.goes_bind first rest

theorem goes_seq (first : K.goes m c [] x) (rest : ∀ {a c'}, K.goes m c' u (f a)) :
    K.goes m c u (x >>= f) :=
  K.goes_bind first fun _ => rest

theorem goes_first (first : K.goes m c u x) (rest : ∀ {a c'}, K.goes m c' [] (f a)) :
    K.goes m c u (x >>= f) :=
  append_nil u ▸ K.goes_bind first fun _ => rest

theorem goes_stop_then (routine : fault.isRoutine = true) :
    K.goes m c u ((throw fault : Gen α) >>= f) := by
  have same : (throw fault : Gen α) >>= f = throw fault := rfl
  rw [same]
  exact K.goes_stop routine

theorem goes_discard (step : K.goes m c u x) : K.goes m c u (discard x) :=
  K.goes_first step (K.goes_pure _)

theorem goes_ite [Decidable p] {y : Gen α} (yes : p → K.goes m c u x) (no : ¬p → K.goes m c u y) :
    K.goes m c u (if p then x else y) := by
  split
  · next h => exact yes h
  · next h => exact no h

theorem goes_when [Decidable p] {x : Gen Unit} {f : Unit → Gen β} (first : p → K.goes m c [] x)
    (rest : ∀ {c'}, K.goes m c' u (f ())) : K.goes m c u (if p then x >>= f else f ()) :=
  K.goes_ite (fun h => K.goes_seq (first h) rest) fun _ => rest

theorem goes_measureStep {ty : Ty} {f : Nat → Gen Unit}
    (rest : BitVec.ofNat 64 (stepSize ty) ≠ 0 → K.goes m c u (f (stepSize ty))) :
    K.goes m c u (measureStep ty >>= f) := by
  unfold measureStep
  split
  · next measured =>
    rw [pure_bind]
    exact rest (ofNat_stepSize_ne_zero measured)
  · exact K.goes_stop_then rfl

end

theorem goes_forIn {ι : Type} {f : ι → PUnit → Gen (ForInStep PUnit)} {xs : List ι}
    (round : ∀ {x u c}, K.goes m c [] (f x u)) (a : PUnit) : K.goes m c [] (forIn xs a f) := by
  induction xs generalizing c a with
  | nil => exact K.goes_pure _
  | cons x rest ih =>
    rw [forIn_cons]
    refine K.goes_seq round fun {step _} => ?_
    cases step with
    | done a => exact K.goes_pure _
    | yield a => exact ih a

theorem goes_holdingRegisterOf {block : Gen α} (inner : ∀ {c'}, K.goes m c' u block) :
    K.goes m c u (holdingRegisterOf v block) := by
  refine K.goes_valueOf fun {_ value} _ _ => ?_
  cases value.register? with
  | none => exact inner
  | some r => exact K.goes_holding fun _ => inner

theorem goes_canonicalize (r : Register) (ty : Ty) : K.goes m c [] (canonicalize r ty) :=
  K.goes_ite (fun _ => K.goes_ite (fun _ => K.goes_plain rfl rfl) fun _ => K.goes_plain rfl rfl)
    fun _ => K.goes_pure _

theorem goes_narrowFloat (r : Register) (ty : Ty) : K.goes m c [] (narrowFloat r ty) :=
  K.goes_ite (fun _ => K.goes_plain rfl rfl) fun _ => K.goes_pure _

theorem goes_load {source : Position} (ready : ∀ {slot}, source = .stack slot → K.ready c slot) :
    K.goes m c [] (load dst source ty) := by
  have through : K.goes m c [] (do
      holding dst do
        let ptr ← obtainRegister .int
        loadAddress ptr source
        emit (.loadPtr dst ptr ty.size.toUInt8)
      canonicalize dst ty) :=
    K.goes_seq (K.goes_holding fun _ => K.goes_seq (K.goes_obtainRegister _)
      (K.goes_seq (K.goes_loadAddress _ _) (K.goes_plain rfl rfl))) (K.goes_canonicalize _ _)
  cases source with
  | register src => exact K.goes_ite (fun _ => K.goes_plain rfl rfl) fun _ => K.goes_pure _
  | stack slot =>
    refine K.goes_seq (K.goes_emit (K.writes_plain rfl) rfl fun read reads => ?_)
      (K.goes_canonicalize _ _)
    exact ready (congrArg Position.stack reads)
  | static offset => exact through
  | constant id => exact through

theorem goes_loadValue (dst : Register) (v : ValueId) : K.goes m c [] (loadValue dst v) := by
  refine K.goes_valueOf fun {c1 value} _ known => ?_
  have loaded {place : Position} (pos : value.position = some place) : K.goes m c1 [] (do
      load dst place value.ty
      touch v) :=
    K.goes_seq (K.goes_load fun is_slot => known.ready (is_slot ▸ pos)) (K.goes_touch v)
  cases value.constant? with
  | some bits => exact K.goes_loadConstant _ _
  | none =>
    cases pos : value.position with
    | none => exact K.goes_stop_then rfl
    | some place =>
      cases place with
      | register src => exact K.goes_when (fun _ => K.goes_plain rfl rfl) (K.goes_touch v)
      | _ => exact K.goes_ite (fun _ => K.goes_stop_then rfl) fun _ => loaded pos

theorem goes_copyMemory {target source : Position}
    (ready : ∀ {slot}, source = .stack slot → K.ready c slot) :
    K.goes m c [] (copyMemory target source ty) := by
  have through : K.goes m c [] (copyThrough target source ty) := by
    refine K.goes_ite (fun _ => ?_) fun _ => ?_
    · refine K.goes_after (K.goes_obtainRegister _) fun first => K.goes_holding fun second => ?_
      refine K.goes_seq (K.goes_load fun is_slot => ?_) (K.goes_store _ _ _)
      exact K.ready_later second (K.ready_later first (ready is_slot))
    · refine K.goes_after (K.goes_obtainRegister _) fun first => K.goes_holding fun second => ?_
      refine K.goes_after (K.goes_loadAddress _ _) fun third => ?_
      refine K.goes_after (K.goes_obtainRegister _) fun fourth => K.goes_holding fun fifth => ?_
      refine K.goes_copyMem fun is_slot =>
        K.ready_later fifth (K.ready_later fourth (K.ready_later third ?_))
      exact K.ready_later second (K.ready_later first (ready is_slot))
  unfold copyMemory
  refine K.goes_ite (fun _ => K.goes_stop_then rfl) fun _ => ?_
  cases target <;> cases source <;> try exact through
  next slot slot' =>
    exact K.goes_emit (K.writes_plain rfl) rfl fun slot reads =>
      ready (congrArg Position.stack reads.1)

theorem goes_consume_then {a : α} (v : ValueId) :
    K.goes m c [v] (do discard (consume v); return a : Gen α) :=
  K.goes_first (K.goes_discard (K.goes_consume v)) (K.goes_pure _)

theorem goes_variableRegister (binds : m ≠ .careful false) (v : ValueId) :
    K.goes m c [] (variableRegister v) := by
  refine K.goes_valueOf fun {_ value} _ _ => ?_
  cases value.register? with
  | some r => exact K.goes_seq (K.goes_touch v) (K.goes_pure _)
  | none =>
    exact K.goes_seq (K.goes_obtainRegister _)
      (K.goes_loadAndBind binds (K.goes_loadValue _ v) (K.goes_pure _))

theorem goes_useInRegister (binds : m ≠ .careful false) (v : ValueId) :
    K.goes m c [v] (useInRegister v) := by
  rw [useInRegister_eq]
  exact K.goes_seq (K.goes_variableRegister binds v) (K.goes_consume_then v)

theorem goes_copyToRegister (v : ValueId) : K.goes m c [] (copyToRegister v) :=
  K.goes_valueOf fun _ _ => K.goes_holdingRegisterOf (K.goes_seq (K.goes_obtainRegister _)
    (K.goes_seq (K.goes_loadValue _ v) (K.goes_pure _)))

theorem goes_takeRegister (v : ValueId) : K.goes m c [v] (takeRegister v) := by
  have copied {c : Context} : K.goes m c [v] (takeRegister.copied v) :=
    K.goes_seq (K.goes_copyToRegister v) (K.goes_consume_then v)
  refine K.goes_valueOf fun {_ value} _ known => ?_
  cases at_register : value.register? with
  | none => exact copied
  | some r =>
    refine K.goes_ite (fun last => ?_) fun _ => copied
    simp only [and_eq_true, beq_iff_eq] at last
    exact K.goes_giveAway known.found at_register last.2 fun _ => K.goes_pure _

/-- The place where a value settles can be read from. -/
theorem goes_settle_then {f : Position → Gen α} (rest : ∀ {place c'},
      (∀ {slot}, place = .stack slot → K.ready c' slot) → K.goes m c' u (f place)) :
    K.goes m c u (settle v >>= f) := by
  rw [settle, bind_assoc]
  refine K.goes_valueOf fun {c1 value} _ known => ?_
  by_cases named : value.isNamed = true
  · simp only [named, ↓reduceIte, bind_assoc, pure_bind]
    refine K.goes_homeOf fun _ ready => K.goes_after (K.goes_flush v) fun flushed => ?_
    exact rest fun is_slot => K.ready_later flushed (ready is_slot)
  by_cases constant : value.isConstant = true
  · simp only [named, constant, false_eq_true, ↓reduceIte, bind_assoc]
    exact K.goes_stop_then rfl
  simp only [named, constant, false_eq_true, ↓reduceIte]
  cases pos : value.position with
  | none => exact K.goes_stop_then rfl
  | some place =>
    cases place with
    | register r =>
      simp only [bind_assoc]
      refine K.goes_seq (K.goes_spill known.found (by simpa using named) pos) ?_
      refine K.goes_valueOf fun {_ later} _ known' => ?_
      cases pos' : later.position with
      | none => exact K.goes_stop_then rfl
      | some place =>
        simp only [pure_bind]
        exact rest fun is_slot => known'.ready (is_slot ▸ pos')
    | _ =>
      simp only [pure_bind]
      exact rest fun is_slot => known.ready (is_slot ▸ pos)

theorem goes_settle (v : ValueId) : K.goes m c [] (settle v) := by
  rw [← bind_pure (settle v)]
  exact K.goes_settle_then fun _ => K.goes_pure _

theorem goes_copyTo (v : ValueId) (target : Position) (ty : Ty) :
    K.goes m c [] (copyTo v target ty) := by
  unfold copyTo
  split
  · exact K.goes_loadValue _ v
  refine K.goes_valueOf fun {_ value} _ known => ?_
  split
  · exact K.goes_seq (K.goes_obtainRegister _)
      (K.goes_holding fun _ => K.goes_seq (K.goes_loadConstant _ _) (K.goes_store _ _ _))
  · exact K.goes_seq (K.goes_touch v) (K.goes_store _ _ _)
  · next source _ pos =>
    refine K.goes_ite (fun _ => K.goes_copyMemory fun is_slot => ?_) fun _ => K.goes_pure _
    exact known.ready (is_slot ▸ pos)
  · exact K.goes_stop rfl

theorem goes_targetRegister (target : Position) (bank : Bank) :
    K.goes m c [] (targetRegister target bank) := by
  cases target with
  | register dst => exact K.goes_pure _
  | _ => exact K.goes_obtainRegister _

theorem goes_copyAddress (v : ValueId) (target : Position) : K.goes m c [] (copyAddress v target) :=
  K.goes_seq (K.goes_settle v) (K.goes_seq (K.goes_targetRegister _ _)
    (K.goes_holding fun _ => K.goes_seq (K.goes_loadAddress _ _) (K.goes_store _ _ _)))

/-- What no rule covers when a value of one type is copied as one of another may be refused. -/
structure Converts (source ty : Ty) : Prop where
  reinterpretation : (source.isArray && ty.isPointer) = false →
    (source.isScalar && ty.isScalar) = true →
    source.bank ≠ ty.bank → K.refuses (.reinterpretation source ty)
  implicitConversion : (source.isArray && ty.isPointer) = false →
    (source.isScalar && ty.isScalar) = false →
    source.size ≠ ty.size → K.refuses (.implicitConversion source ty)

def Fits (v : ValueId) (ty : Ty) : Prop :=
  ∀ source bits, K.sees v source bits → K.Converts source ty

theorem goes_copyConverted (fits : K.Fits v ty) (target : Position) :
    K.goes m c [] (copyConverted v target ty) := by
  refine K.goes_valueOf fun {_ value} _ known =>
    K.goes_ite (fun _ => K.goes_copyAddress v target) fun decays => ?_
  have direct : (value.ty.isArray && ty.isPointer) = false := by simpa using decays
  dsimp only
  refine K.goes_when (fun refused => K.goes_refuse ?_)
    (K.goes_when (fun refused => K.goes_refuse ?_) ?_)
  · rw [and_eq_true, decide_eq_true_eq] at refused
    exact (fits _ _ known.sees).reinterpretation direct refused.1 refused.2
  · rw [and_eq_true, decide_eq_true_eq, not_eq_true'] at refused
    exact (fits _ _ known.sees).implicitConversion direct refused.1 refused.2
  refine K.goes_ite (fun _ => K.goes_copyTo v target ty) fun _ => K.goes_holdingRegisterOf ?_
  refine K.goes_seq (K.goes_targetRegister _ _)
    (K.goes_holding fun _ => K.goes_seq (K.goes_loadValue _ v) ?_)
  refine K.goes_ite (fun _ => K.goes_seq (K.goes_plain rfl rfl) (K.goes_store _ _ _))
    fun _ => K.goes_ite ?_ ?_
  · exact fun _ => K.goes_when (fun _ => K.goes_narrowFloat _ _) (K.goes_store _ _ _)
  · exact fun _ => K.goes_when (fun _ => K.goes_canonicalize _ _) (K.goes_store _ _ _)

theorem goes_markDirty (v : ValueId) : K.goes m c [] (markDirty v) :=
  K.goes_seq (K.goes_setDirty v true) (K.goes_touch v)

section
variable (binds : m ≠ .careful false) {op : AluOp}
include binds

theorem goes_adopt {source : Value} (admitted : K.admits target)
    (is_variable : K.isVariable c target) (found : c.values.get? v = some source)
    (last : source.references = 1) (at_register : source.register? = some r) :
    K.goes m c [v] (adopt target v r targetTy source.ty) := by
  have bound {c : Context} : K.goes m c [] (do bindRegister r target; markDirty target) :=
    K.goes_seq (K.goes_bindRegister r binds admitted) (K.goes_markDirty target)
  have fitted {c : Context} : K.goes m c [] (do
      if targetTy.isBool && !source.ty.isBool then
        emit (.cmpImm r 0 .ne)
      else if source.ty.unqualified ≠ targetTy.unqualified then
        canonicalize r targetTy
      bindRegister r target
      markDirty target) :=
    K.goes_ite (fun _ => K.goes_seq (K.goes_plain rfl rfl) bound) fun _ =>
      K.goes_when (fun _ => K.goes_canonicalize _ _) bound
  refine K.goes_giveAway found at_register last fun first =>
    K.goes_valueOf fun {_ old} second known => ?_
  dsimp only
  cases held : old.register? with
  | none => exact fitted
  | some q =>
    exact K.goes_retake known.found held
      (K.isVariable_later second (K.isVariable_later first is_variable)) fitted

theorem goes_assignInRegister (admitted : K.admits target) (fits : K.Fits value targetTy) :
    K.goes m c [value] (assignInRegister target value targetTy) := by
  have copied {c : Context} (existing : Option Register) (r : Register) :
      K.goes m c [value] (holding r do
      copyConverted value (.register r) targetTy
      discard (consume value)
      if existing.isNone then bindRegister r target) := by
    refine K.goes_holding fun _ => K.goes_seq (K.goes_copyConverted fits _) ?_
    exact K.goes_first (K.goes_discard (K.goes_consume value))
      (K.goes_ite (fun _ => K.goes_bindRegister r binds admitted) fun _ => K.goes_pure _)
  refine K.goes_first (K.goes_holdingRegisterOf (K.goes_valueOf fun {_ old} _ _ => ?_))
    (K.goes_markDirty target)
  dsimp only
  cases old.register? with
  | some r => exact K.goes_seq (K.goes_pure _) (copied (some r) _)
  | none => exact K.goes_seq (K.goes_obtainRegister _) (copied none _)

omit binds in
theorem goes_assignInMemory (wide : K.isWide c target) (fits : K.Fits value targetTy) :
    K.goes m c [value] (assignInMemory target value targetTy) :=
  K.goes_rehome wide (K.goes_copyConverted fits _) (K.goes_discard (K.goes_consume value))
    (K.goes_touchAndMark target)

theorem goes_lowerAssign (fits : ∀ ty bits, K.sees target ty bits → K.Fits value ty) :
    K.goes m c [value] (lowerAssign target value) := by
  refine K.goes_valueOf fun {c1 old} _ known => ?_
  cases is_named : old.named? with
  | none => exact K.goes_stop rfl
  | some named =>
    have is_variable : old.isNamed = true := by simp [Value.isNamed, is_named]
    refine K.goes_valueOf fun {c2 source} later known' => ?_
    dsimp only
    split
    · next r adoptable at_register =>
      simp only [and_eq_true, beq_iff_eq] at adoptable
      refine K.goes_adopt binds (known.admits is_variable (by tauto)) ?_ known'.found
        (by tauto) at_register
      exact K.isVariable_later later (known.isVariable is_variable)
    · refine K.goes_ite (fun narrow => ?_) fun wide => ?_
      · exact K.goes_assignInRegister binds (known.admits is_variable narrow) (fits _ _ known.sees)
      · exact K.goes_assignInMemory (K.isWide_later later (known.isWide (by simpa using wide)))
          (fits _ _ known.sees)

theorem goes_resultRegister (lhs : ValueId) (inPlace : Bool) :
    K.goes m c (if inPlace then [] else [lhs]) (resultRegister lhs inPlace) := by
  cases inPlace with
  | true => exact K.goes_variableRegister binds lhs
  | false => exact K.goes_takeRegister lhs

theorem goes_finishResult {inPlace : Bool}
    (admitted : inPlace = false → K.admits result) (r : Register) (lhs : ValueId) :
    K.goes m c [] (finishResult r lhs result inPlace) :=
  K.goes_ite (fun _ => K.goes_markDirty lhs) fun fresh => K.goes_bindRegister r binds
    (admitted (by simpa using fresh))

theorem goes_applyRight {rhs : ValueId} {scale : Nat} {difference : Bool}
    (legal : ∀ {ty bits}, K.sees rhs ty (some bits) →
      K.writes (.aluImm op dst
        (.value (if difference then bits else bits * BitVec.ofNat 64 scale)))) :
    K.goes m c [rhs] (applyRight op dst rhs scale difference) := by
  refine K.goes_valueOf fun {_ value} _ known => ?_
  cases constant : value.constant? with
  | some bits =>
    exact K.goes_first (K.goes_discard (K.goes_consume rhs))
      (K.goes_quiet rfl (legal (constant ▸ known.sees)))
  | none =>
    refine K.goes_ite (fun _ => ?_) fun _ => K.goes_first (K.goes_useInRegister binds rhs)
      (K.goes_plain rfl rfl)
    exact K.goes_first (K.goes_takeRegister rhs)
      (K.goes_seq (K.goes_plain rfl rfl) (K.goes_plain rfl rfl))

omit binds in
theorem writes_immediate {imm : Word}
    (legal : op.isDivision = true → imm = 0 → K.writes (.aluImm op dst (.value 0))) :
    K.writes (.aluImm op dst (.value imm)) := by
  by_cases zero : op.isDivision = true ∧ imm = 0
  · rw [zero.2]
    exact legal zero.1 zero.2
  · refine K.writes_plain (?_ : (!(op.isDivision && imm == 0)) = true)
    cases division : op.isDivision <;> simp_all

omit binds in
/-- Where the operands are such as construction refuses, divisions by zero may be written. -/
def Divides (op : BinaryOp) (lhs rhs : ValueId) : Prop :=
  ∀ ⦃left right bits divisor⦄, K.sees lhs left bits →
    K.sees rhs right divisor → op.Risks left right divisor →
    ∀ alu dst, K.writes (.aluImm alu dst (.value 0))

section
variable {inPlace : Bool} (admitted : inPlace = false → K.admits result)
  {lhs rhs : ValueId} {op : BinaryOp}
include admitted

theorem goes_computed {apply : Register → Gen Unit}
    (right : ∀ {dst c}, K.goes m c [rhs] (apply dst)) :
    K.goes m c (if inPlace then [rhs] else [lhs, rhs]) (do
      let dst ← resultRegister lhs inPlace
      holding dst (apply dst)
      finishResult dst lhs result inPlace) := by
  have operands :
      (if inPlace then [rhs] else [lhs, rhs]) = (if inPlace then [] else [lhs]) ++ [rhs] := by
    cases inPlace <;> rfl
  rw [operands]
  exact K.goes_then (K.goes_resultRegister binds lhs inPlace)
    (K.goes_first (K.goes_holding fun _ => right) (K.goes_finishResult binds admitted _ _))

theorem goes_lowerFloatBinary (op : BinaryOp) (lhs rhs : ValueId) :
    K.goes m c (if inPlace then [rhs] else [lhs, rhs])
    (lowerFloatBinary op lhs rhs result inPlace) := by
  unfold lowerFloatBinary
  cases op.floatOp? with
  | none => exact K.goes_stop rfl
  | some floatOp =>
    exact K.goes_computed binds admitted (K.goes_first (K.goes_useInRegister binds rhs)
      (K.goes_seq (K.goes_plain rfl rfl) (K.goes_valueOf fun _ _ => K.goes_narrowFloat _ _)))

theorem goes_lowerIntBinary (divides : K.Divides op lhs rhs) :
    K.goes m c (if inPlace then [rhs] else [lhs, rhs])
    (lowerIntBinary op lhs rhs result inPlace) := by
  have straight (lhs rhs : ValueId) {op : AluOp} (ty : Ty) {scale : Nat} {difference : Bool}
      (legal : ∀ {dst ty bits}, K.sees rhs ty (some bits) →
        K.writes (.aluImm op dst
          (.value (if difference then bits else bits * BitVec.ofNat 64 scale))))
      (quotient : ∀ {dst}, difference = true →
        K.writes (.aluImm .divS dst (.value (BitVec.ofNat 64 scale))))
      {c : Context} : K.goes m c (if inPlace then [rhs] else [lhs, rhs]) (do
        let dst ← resultRegister lhs inPlace
        holding dst do
          applyRight op dst rhs scale difference
          if difference && 1 < scale then
            emit (.aluImm .divS dst (.value (BitVec.ofNat 64 scale)))
          canonicalize dst ty
        finishResult dst lhs result inPlace) :=
    K.goes_computed binds admitted (K.goes_first (K.goes_applyRight binds legal) (K.goes_when
      (fun differs => K.goes_quiet rfl (quotient (and_eq_true_iff.mp differs).1))
        (K.goes_canonicalize _ _)))
  -- Only operands of a new result change places.
  have turned (fresh : inPlace = false) :
      (if inPlace then [lhs] else [rhs, lhs]).Perm (if inPlace then [rhs] else [lhs, rhs]) := by
    rw [fresh]
    exact .swap _ _ _
  have swapped (fresh : inPlace = false) {op : AluOp} (ty : Ty) {scale : Nat}
      {difference : Bool} {c : Context}
      legal quotient :=
        K.goes_perm (@straight rhs lhs op ty scale difference legal quotient c) (turned fresh)
  have straight := @straight lhs rhs
  generalize (if inPlace = true then [rhs] else [lhs, rhs]) = used at swapped straight ⊢
  refine K.goes_valueOf fun _ _ => K.goes_valueOf fun {_ left} _ known =>
    K.goes_valueOf fun {_ right} _ known' => ?_
  have alu {signed : Bool} (division : (op.aluOp signed).isDivision = true) :
      op.isDivision = true := by
    cases op <;> cases signed <;> first | rfl | cases division
  have risky (division : op.isDivision = true)
      (pointer : left.ty.isPointer = true ∨ right.ty.isPointer = true) :=
    divides known.sees known'.sees ⟨division, or_assoc.mp (.inl pointer)⟩
  dsimp only
  split
  · next turned =>
    simp only [and_eq_true, not_eq_true'] at turned
    refine K.goes_measureStep fun _ => K.goes_valueOf fun _ _ => K.goes_valueOf fun _ _ => ?_
    have legal {signed : Bool} {dst : Register} {imm : Word} :
        K.writes (.aluImm (op.aluOp signed) dst (.value imm)) :=
      K.writes_immediate fun division _ => risky (alu division) (.inr turned.1.2) _ dst
    have alike : ¬(right.ty.isPointer && left.ty.isPointer) = true := by simp [turned.2]
    dsimp only
    split
    · exact straight _ (fun _ => legal) fun differs => (alike differs).elim
    · exact swapped turned.1.1 _ (fun _ => legal) fun differs => (alike differs).elim
  · refine K.goes_measureStep fun nonzero => K.goes_valueOf fun _ _ => K.goes_valueOf fun _ _ => ?_
    have quotient {dst : Register} (_ : (left.ty.isPointer && right.ty.isPointer) = true) :
        K.writes (.aluImm .divS dst (.value (BitVec.ofNat 64 (stepSize left.ty)))) :=
      K.writes_immediate fun _ none => absurd none nonzero
    dsimp only
    split
    · next turned =>
      simp only [and_eq_true, not_eq_true'] at turned
      refine swapped turned.1.1.1.1 _ (fun _ => K.writes_immediate fun division => ?_) quotient
      have commutes := turned.1.1.2
      have whole : op.isDivision = false := by cases op <;> first | rfl | cases commutes
      cases whole.symm.trans (alu division)
    · refine straight
        _ (fun {dst ty bits} seen => K.writes_immediate fun division none => ?_) quotient
      by_cases pointer : left.ty.isPointer = true ∨ right.ty.isPointer = true
      · exact risky (alu division) pointer _ dst
      · -- Numbers are not scaled.
        obtain ⟨number, number'⟩ := not_or.mp pointer
        have unscaled : stepSize left.ty = 1 := by
          unfold stepSize
          split
          · next is_pointee => exact (number (Ty.isPointer_of_pointee? is_pointee)).elim
          · rfl
        have zero : bits = 0 := by simpa [number, unscaled] using none
        exact divides known.sees seen ⟨alu division, .inr (.inr (congrArg some zero))⟩ _ dst

theorem goes_lowerBinary
    (divides : ∀ left bits, K.sees lhs left bits → left.isFloat = false → K.Divides op lhs rhs) :
    K.goes m c (if inPlace then [rhs] else [lhs, rhs]) (lowerBinary op lhs rhs result inPlace) := by
  have known (v : ValueId) {c : Context} : K.goes m c [] (discard (valueOf v)) :=
    K.goes_valueOf fun _ _ => K.goes_pure _
  refine K.goes_valueOf fun _ seen => K.goes_seq (known _) (K.goes_seq (known _) ?_)
  exact K.goes_ite (fun _ => K.goes_lowerFloatBinary binds admitted _ _ _) fun int =>
    K.goes_lowerIntBinary binds admitted (divides _ _ seen.sees (by simpa using int))

end

section
variable (admitted : K.admits result)
include admitted

theorem goes_lowerFloatCompare (op : CompareOp) (lhs rhs : ValueId) :
    K.goes m c [lhs, rhs] (lowerFloatCompare op lhs rhs result) := by
  refine K.goes_then (K.goes_useInRegister binds lhs) (K.goes_holding fun _ => ?_)
  refine K.goes_first (K.goes_useInRegister binds rhs) (K.goes_holding fun _ => ?_)
  exact K.goes_seq (K.goes_obtainRegister _)
    (K.goes_seq (K.goes_plain rfl rfl) (K.goes_bindRegister _ binds admitted))

theorem goes_lowerIntCompare (op : CompareOp) (lhs rhs : ValueId) (signed : Bool) :
    K.goes m c [lhs, rhs] (lowerIntCompare op lhs rhs result signed) := by
  refine K.goes_valueOf fun _ _ =>
    K.goes_ite (fun _ => K.goes_valueOf fun _ _ => K.goes_seq (K.goes_pure _) ?_)
    fun _ => K.goes_seq (K.goes_pure _) ?_
  all_goals
    intro swap c1
    dsimp only
    split
    -- The operands are compared in the same way whichever is on the left.
    on_goal 1 => refine K.goes_perm ?_ (List.Perm.swap lhs rhs [])
  all_goals
    refine K.goes_then (K.goes_takeRegister _)
      (K.goes_holding fun _ => K.goes_valueOf fun {_ value} _ _ => ?_)
    cases value.constant? with
    | some bits =>
      exact K.goes_first (K.goes_discard (K.goes_consume _))
        (K.goes_seq (K.goes_plain rfl rfl) (K.goes_bindRegister _ binds admitted))
    | none =>
      exact K.goes_first (K.goes_useInRegister binds _)
        (K.goes_seq (K.goes_plain rfl rfl) (K.goes_bindRegister _ binds admitted))

theorem goes_lowerCompare (op : CompareOp) (lhs rhs : ValueId) :
    K.goes m c [lhs, rhs] (lowerCompare op lhs rhs result) :=
  K.goes_valueOf fun _ _ => K.goes_ite (fun _ => K.goes_lowerFloatCompare binds admitted _ _ _)
    fun _ => K.goes_lowerIntCompare binds admitted _ _ _ _

theorem goes_lowerUnary (op : UnaryOp) (operand : ValueId) :
    K.goes m c [operand] (lowerUnary op operand result) := by
  have bound {c : Context} {r : Register} : K.goes m c [] (bindRegister r result) :=
    K.goes_bindRegister r binds admitted
  refine K.goes_valueOf fun _ _ => K.goes_valueOf fun _ _ => ?_
  dsimp only
  split
  · refine K.goes_first (K.goes_useInRegister binds operand) (K.goes_holding fun _ => ?_)
    refine K.goes_seq (K.goes_obtainRegister _)
      (K.goes_holding fun _ => K.goes_seq (K.goes_loadConstant _ _) ?_)
    exact K.goes_seq (K.goes_obtainRegister _) (K.goes_seq (K.goes_plain rfl rfl) bound)
  · exact K.goes_first (K.goes_takeRegister operand) (K.goes_seq (K.goes_plain rfl rfl) bound)
  all_goals
    exact K.goes_first (K.goes_takeRegister operand) (K.goes_seq (K.goes_plain rfl rfl)
      (K.goes_seq (K.goes_canonicalize _ _) bound))

omit binds admitted in
def Inconvertible (source target : Ty) : Prop :=
  ((source.isFloat && target.isPointer) || (source.isPointer && target.isFloat)
    || !source.isScalar || !target.isScalar) = true

theorem goes_lowerConvert
    (legal : ∀ source target bits bits', K.sees value source bits → K.sees result target bits' →
      Inconvertible source target → K.refuses (.conversion source target)) :
    K.goes m c [value] (lowerConvert value result) := by
  have bound {c : Context} {r : Register} : K.goes m c [] (bindRegister r result) :=
    K.goes_bindRegister r binds admitted
  have used {c : Context} : K.goes m c [value] (useInRegister value) :=
    K.goes_useInRegister binds value
  refine K.goes_valueOf fun {_ source} _ known => K.goes_valueOf fun {_ target} _ known' => ?_
  refine K.goes_when
    (fun refused => K.goes_refuse (legal _ _ _ _ known.sees known'.sees refused)) ?_
  intro c
  dsimp only
  split
  · refine K.goes_first (K.goes_takeRegister value) (K.goes_ite (fun _ => ?_) fun _ => ?_)
    · exact K.goes_seq (K.goes_plain rfl rfl) bound
    · exact K.goes_when (fun _ => K.goes_canonicalize _ _) bound
  · refine K.goes_first used (K.goes_holding fun _ => K.goes_seq (K.goes_obtainRegister _) ?_)
    exact K.goes_seq (K.goes_plain rfl rfl) (K.goes_seq (K.goes_narrowFloat _ _) bound)
  · refine K.goes_first used (K.goes_holding fun _ => K.goes_seq (K.goes_obtainRegister _) ?_)
    refine K.goes_ite (fun _ => K.goes_seq ?_ bound) fun _ => ?_
    · exact K.goes_seq (K.goes_obtainRegister _)
        (K.goes_seq (K.goes_loadConstant _ _) (K.goes_plain rfl rfl))
    · exact K.goes_seq (K.goes_plain rfl rfl) (K.goes_seq (K.goes_canonicalize _ _) bound)
  · exact K.goes_first (K.goes_takeRegister value)
      (K.goes_when (fun _ => K.goes_narrowFloat _ _) bound)

theorem goes_lowerAddressOf (value : ValueId) : K.goes m c [value] (lowerAddressOf value result) :=
  K.goes_seq (K.goes_escape value) (K.goes_seq (K.goes_settle value)
    (K.goes_first (K.goes_discard (K.goes_consume value)) (K.goes_seq (K.goes_obtainRegister _)
      (K.goes_seq (K.goes_loadAddress _ _) (K.goes_bindRegister _ binds admitted)))))

omit binds admitted in
theorem goes_copyWords (ptr chunk : Register) (slot : StackSlot) (count done : Nat) :
    K.goes m c [] (copyWords ptr chunk slot count done) := by
  induction count generalizing done c with
  | zero => exact K.goes_pure _
  | succ count ih =>
    unfold copyWords
    exact K.goes_when (fun _ => K.goes_plain rfl rfl)
      (K.goes_seq (K.goes_plain rfl rfl) (K.goes_seq (K.goes_plain rfl rfl) (ih _)))

theorem goes_dereferenceNarrow (pointer : ValueId) (ty : Ty) : K.goes m c [pointer] (do
    let ptr ← useInRegister pointer
    holding ptr do
      let dst ← obtainRegister ty.bank
      emit (.loadPtr dst ptr ty.size.toUInt8)
      canonicalize dst ty
      bindRegister dst result) := by
  refine K.goes_first (K.goes_useInRegister binds pointer)
    (K.goes_holding fun _ => K.goes_seq (K.goes_obtainRegister _) ?_)
  exact K.goes_seq (K.goes_plain rfl rfl)
    (K.goes_seq (K.goes_canonicalize _ _) (K.goes_bindRegister _ binds admitted))

theorem goes_lowerDereference (places : K.places) (pointer : ValueId) :
    K.goes m c [pointer] (lowerDereference pointer result) := by
  refine K.goes_valueOf fun _ _ =>
    K.goes_ite (fun _ => K.goes_dereferenceNarrow binds admitted _ _) fun _ => ?_
  refine K.goes_seq (K.goes_allocateSlot _)
    (K.goes_first (K.goes_takeRegister pointer) (K.goes_holding fun _ => ?_))
  exact K.goes_seq (K.goes_obtainRegister _)
    (K.goes_seq (K.goes_copyWords _ _ _ _ _) (K.goes_place places))

theorem goes_lowerMember (pointer : ValueId) (offset : Nat) :
    K.goes m c [pointer] (lowerMember pointer offset result) :=
  K.goes_first (K.goes_takeRegister pointer)
    (K.goes_when (fun _ => K.goes_plain rfl rfl) (K.goes_bindRegister _ binds admitted))

theorem goes_lowerFunctionAddress (start : LabelId) :
    K.goes m c [] (lowerFunctionAddress start result) :=
  K.goes_seq (K.goes_obtainRegister _) (K.goes_seq (K.goes_plain rfl rfl)
    (K.goes_seq (K.goes_plain rfl rfl) (K.goes_bindRegister _ binds admitted)))

end

theorem goes_storedRegister (fits : K.Fits value ty) {valueTy : Ty} {use : Register → Gen α}
    (used : ∀ {r c}, K.goes m c [] (use r)) :
    K.goes m c [value] (storedRegister value valueTy ty use) := by
  refine K.goes_ite (fun _ => K.goes_first (K.goes_useInRegister binds value) used) fun _ => ?_
  refine K.goes_holdingRegisterOf
    (K.goes_seq (K.goes_obtainRegister _) (K.goes_holding fun _ => ?_))
  exact K.goes_seq (K.goes_copyConverted fits _)
    (K.goes_first (K.goes_discard (K.goes_consume value)) used)

theorem goes_lowerStore
    (fits : ∀ target pointee bits, K.sees pointer target bits → target.pointee? = some pointee →
      K.Fits value pointee) : K.goes m c [pointer, value] (lowerStore pointer value) := by
  refine K.goes_valueOf fun {_ address} _ known => ?_
  dsimp only
  cases points : address.ty.pointee? with
  | none => exact K.goes_stop rfl
  | some pointee =>
    refine K.goes_valueOf fun _ _ => K.goes_ite (fun _ => ?_) fun _ => ?_
    · exact K.goes_then (K.goes_useInRegister binds pointer)
        (K.goes_holding fun _ => K.goes_storedRegister binds (fits _ _ _ known.sees points)
          (K.goes_plain rfl rfl))
    · refine K.goes_perm (K.goes_settle_then fun ready => ?_) (List.Perm.swap pointer value [])
      refine K.goes_bind (K.goes_discard (K.goes_consume value)) fun first => ?_
      refine append_nil [pointer] ▸ K.goes_bind
        (K.goes_useInRegister binds pointer) fun second => ?_
      refine K.goes_holding fun third => K.goes_after (K.goes_obtainRegister _) fun fourth => ?_
      refine K.goes_copyMem fun is_slot => K.ready_later fourth
        (K.ready_later third (K.ready_later second ?_))
      exact K.ready_later first (ready is_slot)

theorem goes_lowerBranch (cond : ValueId) {label : LabelId} {jumpIf : Bool}
    (legal : ∀ r, K.writes (.jumpIf r label jumpIf)) (spillAll : Bool) :
    K.goes m c [cond] (lowerBranch cond label jumpIf spillAll) :=
  K.goes_first (K.goes_useInRegister binds cond) (K.goes_holding fun _ => K.goes_seq K.goes_flushAll
    (K.goes_when (fun _ => K.goes_vacateAll) (K.goes_quiet rfl (legal _))))

end

theorem goes_placeArguments {next : Gen α} (last : ∀ {c}, K.goes m c u next)
    {placed : List (ValueId × ArgumentPlace × Ty)}
    (fits : ∀ v place ty, (v, place, ty) ∈ placed → K.Fits v ty) :
    K.goes m c (placed.map Prod.fst ++ u) (placeArguments next placed) := by
  induction placed generalizing c with
  | nil => exact last
  | cons first rest ih =>
    have others {c : Context} := ih (c := c) fun _ _ _ member => fits _ _ _ (.tail _ member)
    have mine := fits _ _ _ (.head _)
    obtain ⟨argument, place, ty⟩ := first
    have consumed {c : Context} : K.goes m c (argument :: (rest.map Prod.fst ++ u)) (do
        discard (consume argument)
        placeArguments next rest) := K.goes_then (K.goes_discard (K.goes_consume argument)) others
    cases place with
    | stack offset => exact K.goes_seq (K.goes_copyConverted mine _) consumed
    | register r =>
      exact K.goes_seq (K.goes_copyConverted mine _) (K.goes_holding fun _ => consumed)

theorem goes_reserveBuffer (sig : Signature) (layout : CallLayout) :
    K.goes m c [] (reserveBuffer sig layout) := by
  unfold reserveBuffer
  split
  · exact K.goes_seq (K.goes_allocateSlot _) (K.goes_seq (K.goes_obtainRegister _)
      (K.goes_seq (K.goes_plain rfl rfl) (K.goes_seq (K.goes_plain rfl rfl) (K.goes_pure _))))
  · exact K.goes_pure _

def Calls (start : Option LabelId) : Callee → Prop
  | .direct _ => ∀ label, start = some label → K.writes (.call label)
  | .indirect _ => ∀ r, K.writes (.callPtr r)

variable {start : Option LabelId} {callee : Callee} {sig : Signature} {args : List ValueId}
  {result : Option ValueId} {functions : Array Declaration} {decl : Declaration} {isLast : Bool}

theorem goes_emitCall (calls : K.Calls start callee) :
    K.goes m c (pointers callee) (emitCall start callee) := by
  unfold emitCall
  split
  · exact K.goes_seq (K.goes_copyToRegister _) (K.goes_first (K.goes_discard (K.goes_consume _))
      (K.goes_seq (K.goes_quiet rfl (calls _)) K.goes_addCall))
  · exact K.goes_seq (K.goes_quiet rfl (calls _ rfl)) K.goes_addCall
  · exact K.goes_stop_then rfl

theorem goes_bindResult (binds : m ≠ .careful false) (admitted : K.admits v) (places : K.places)
    (layout : CallLayout) (buffer : Option StackSlot) :
    K.goes m c [] (bindResult layout buffer v) := by
  unfold bindResult
  split
  · exact K.goes_bindRegister _ binds admitted
  · exact K.goes_place places
  · exact K.goes_stop rfl

theorem perm_placed {others : List β} (length : args.length = others.length)
    (pointers : List ValueId) :
    ((args.zip others).reverse.map Prod.fst ++ pointers).Perm (args ++ pointers) := by
  rw [map_reverse, map_fst_zip length.le]
  exact (reverse_perm _).append_right _

section
variable (calls : K.Calls start callee)
  (arity : args.length = (ofSignature sig).arguments.length)
  (fits : ∀ v ty, (v, ty) ∈ args.zip sig.params → K.Fits v ty)
include calls arity fits

theorem goes_placeAndCall :
    K.goes m c (args ++ pointers callee) (placeArguments (emitCall start callee)
      (args.zip ((ofSignature sig).arguments.zip sig.params)).reverse) := by
  have length : args.length = ((ofSignature sig).arguments.zip sig.params).length := by
    rw [length_zip, ← length_arguments, Nat.min_self]
    exact arity
  refine K.goes_perm (K.goes_placeArguments (K.goes_emitCall calls) fun v place ty member => ?_)
    (perm_placed length (pointers callee))
  rw [mem_reverse] at member
  refine fits v ty ?_
  simp only [mem_iff_getElem?, getElem?_zip_eq_some] at member ⊢
  obtain ⟨k, is_v, _, is_ty⟩ := member
  exact ⟨k, is_v, is_ty⟩

theorem goes_called {f : Option StackSlot → Gen α}
    (rest : ∀ {buffer c'}, K.goes m c' [] (f buffer)) : K.goes m c (args ++ pointers callee) (do
      vacateAll
      let buffer ← reserveBuffer sig (.ofSignature sig)
      placeArguments (emitCall start callee)
        (args.zip ((ofSignature sig).arguments.zip sig.params)).reverse
      dropAll false
      f buffer) := by
  have emptied := K.goes_emptied (m := m) (c := c) (f := f)
    (K.goes_seq (K.goes_reserveBuffer sig (.ofSignature sig)) fun {buffer _} =>
      K.goes_first (K.goes_placeAndCall calls arity fits) (K.goes_pure buffer)) rest
  simpa only [bind_assoc, pure_bind] using emptied

end

theorem goes_lowerInternalCall (binds : m ≠ .careful false) (calls : K.Calls start callee)
    (fits : ∀ v ty, (v, ty) ∈ args.zip sig.params → K.Fits v ty)
    (admitted : ∀ {v}, result = some v → K.admits v) (places : result.isSome → K.places) :
    K.goes m c (args ++ pointers callee) (lowerInternalCall sig start callee args result) := by
  refine K.goes_ite (fun _ => K.goes_stop_then rfl) fun arity => ?_
  have arity : args.length = (ofSignature sig).arguments.length := by simpa using arity
  cases result with
  | none => exact K.goes_called calls arity fits (K.goes_pure _)
  | some v =>
    exact K.goes_called calls arity fits (K.goes_bindResult binds (admitted rfl) (places rfl) _ _)

theorem goes_loadArguments {next : List (Register × Word) → Gen α}
    (last : ∀ {loaded c}, K.goes m c [] (next loaded)) {args : List (ValueId × Ty)}
    (fits : ∀ v ty, (v, ty) ∈ args → K.Fits v ty) (loaded : List (Register × Word)) :
    K.goes m c (args.map Prod.fst) (loadArguments next args loaded) := by
  induction args generalizing c loaded with
  | nil => exact last
  | cons first rest ih =>
    refine K.goes_holdingRegisterOf
      (K.goes_seq (K.goes_obtainRegister _) (K.goes_holding fun _ => ?_))
    refine K.goes_seq (K.goes_copyConverted (fits _ _ (.head _)) _) ?_
    exact K.goes_then (K.goes_discard (K.goes_consume _))
      (ih (fun _ _ member => fits _ _ (.tail _ member)) _)

theorem goes_emitExternalCall {floatResult : Bool} {loaded : List (Register × Word)}
    (pushes : ∀ r, K.writes (.push r)) (pushes' : ∀ w, K.writes (.pushImm w))
    (calls : ∀ r, K.writes (.callExternal r)) :
    K.goes m c [] (emitExternalCall handle floatResult dst loaded) := by
  have word {c : Context} {w : Word} : K.goes m c [] (emit (.pushImm w)) :=
    K.goes_quiet rfl (pushes' w)
  refine K.goes_seq word (K.goes_seq word (K.goes_seq word (K.goes_seq (K.goes_forIn ?_ _) ?_)))
  · exact K.goes_seq (K.goes_quiet rfl (pushes _)) (K.goes_seq word (K.goes_pure _))
  · exact K.goes_seq (K.goes_quiet rfl (calls dst)) K.goes_addCall

theorem goes_lowerExternalCall (binds : m ≠ .careful false)
    (handed : ∀ {m c} floatResult dst loaded, K.goes m c []
      (emitExternalCall handle floatResult dst loaded))
    (fits : ∀ v ty, (v, ty) ∈ args.zip decl.signature.params → K.Fits v ty)
    (admitted : ∀ {v}, result = some v → K.admits v) :
    K.goes m c args (lowerExternalCall decl handle args result) := by
  refine K.goes_ite (fun _ => K.goes_stop_then rfl) fun arity => ?_
  have same : (args.zip decl.signature.params).map Prod.fst = args :=
    map_fst_zip (by simp only [ne_eq, Decidable.not_not] at arity; exact arity.le)
  have loaded {m : Manner} {c : Context} (dst : Register) :
      K.goes m c ((args.zip decl.signature.params).map Prod.fst)
        (loadArguments (emitExternalCall handle decl.signature.result.isFloat dst)
          (args.zip decl.signature.params) []) := K.goes_loadArguments (handed _ dst _) fits []
  rw [same] at loaded
  refine K.goes_emptied (loaded _) fun {_ _} => ?_
  cases result with
  | none => exact K.goes_pure _
  | some v => exact K.goes_bindRegister _ binds (admitted rfl)

theorem goes_settleAtJoin : K.goes m c [] settleAtJoin :=
  K.goes_seq K.goes_flushAll K.goes_dropReferenced

theorem goes_retireOccupant (v : ValueId) : K.goes m c [] (retireOccupant v) := by
  refine K.goes_valueOf fun {_ value} _ _ => ?_
  cases value.named? with
  | none => exact K.goes_pure _
  | some named =>
    exact K.goes_ite
      (fun _ => K.goes_ite (fun _ => K.goes_setDirty _ false) fun _ => K.goes_flush _)
      fun _ => K.goes_pure _

theorem goes_retireRegisters : K.goes .parting c [] retireRegisters :=
  K.goes_overOccupied (K.goes_seq (K.goes_retireOccupant _) (K.goes_pure _)) K.goes_dropLast

theorem goes_returnInRegister (fits : K.Fits v ty) (r : Register) :
    K.goes .parting c [v] (returnInRegister v r ty) := by
  refine K.goes_valueOf fun _ _ => K.goes_when (fun _ => K.goes_displace r) ?_
  refine K.goes_holding fun _ => K.goes_holdingRegisterOf
    (K.goes_seq (K.goes_copyConverted fits _) ?_)
  exact K.goes_first (K.goes_discard (K.goes_consume v)) K.goes_retireRegisters

theorem goes_returnInMemory (decl : Declaration) (v : ValueId) :
    K.goes .parting c [v] (returnInMemory decl v) := by
  unfold returnInMemory
  cases decl.returnPointer with
  | none => exact K.goes_stop rfl
  | some pointer =>
    refine K.goes_settle_then fun ready => ?_
    refine append_nil [v] ▸ K.goes_bind (K.goes_discard (K.goes_consume v)) fun first => ?_
    refine K.goes_after (K.goes_copyToRegister pointer) fun second => K.goes_holding fun third => ?_
    refine K.goes_after (K.goes_obtainRegister _) fun fourth => K.goes_holding fun fifth => ?_
    rw [← bind_assoc]
    refine K.goes_seq (K.goes_copyMem fun is_slot => K.ready_later fifth (K.ready_later fourth ?_))
      K.goes_retireRegisters
    exact K.ready_later third (K.ready_later second (K.ready_later first (ready is_slot)))

theorem goes_lowerReturn {value : Option ValueId}
    (fits : ∀ v, value = some v → K.Fits v decl.signature.result)
    (leaves : isLast = false → K.writes (.jump decl.epilogue)) :
    K.goes .parting c value.toList (lowerReturn decl value isLast) := by
  have left {c : Context} : K.goes .parting c [] (do if !isLast then emit (.jump decl.epilogue)) :=
    K.goes_ite (fun early => K.goes_quiet rfl (leaves (by simpa using early)))
      fun _ => K.goes_pure _
  unfold lowerReturn
  cases value with
  | none => exact K.goes_seq K.goes_retireRegisters left
  | some v =>
    cases decl.layout.result with
    | register r => exact K.goes_first (K.goes_returnInRegister (fits v rfl) r) left
    | memory => exact K.goes_first (K.goes_returnInMemory decl v) left
    | void => exact K.goes_stop_then rfl

/-- What the rule of an operation may have to write, to refuse or to place, it may. -/
def Allows (functions : Array Declaration) (decl : Declaration) (isLast : Bool) : Operation → Prop
  | .binary op lhs rhs _ _ => ∀ left bits, K.sees lhs left bits → left.isFloat = false →
      K.Divides op lhs rhs
  | .convert value result => ∀ source target bits bits', K.sees value source bits →
      K.sees result target bits' →
      Inconvertible source target → K.refuses (.conversion source target)
  | .assign target value => ∀ ty bits, K.sees target ty bits → K.Fits value ty
  | .store pointer value => ∀ target pointee bits, K.sees pointer target bits →
      target.pointee? = some pointee → K.Fits value pointee
  | .call (.direct function) args _ => ∀ called, functions[function.index]? = some called →
      (∀ v ty, (v, ty) ∈ args.zip called.signature.params → K.Fits v ty)
        ∧ (∀ handle, called.linkage = .external handle →
          ∀ {m c} floatResult dst loaded, K.goes m c []
          (emitExternalCall handle floatResult dst loaded))
        ∧ (called.linkage = .internal → K.writes (.call called.start))
  | .call (.indirect pointer) args _ => (∀ r, K.writes (.callPtr r))
      ∧ ∀ target sig bits, K.sees pointer target bits → target.signature? = some sig →
        ∀ v ty, (v, ty) ∈ args.zip sig.params → K.Fits v ty
  | .label label => K.writes (.label label)
  | .jump label => K.writes (.jump label)
  | .branch _ label jumpIf _ => ∀ r, K.writes (.jumpIf r label jumpIf)
  | .ret value => (∀ v, value = some v → K.Fits v decl.signature.result)
      ∧ (isLast = false → K.writes (.jump decl.epilogue))
  | _ => True

theorem fits_of_refuses (refuses : ∀ cause, K.refuses cause) (v : ValueId) (ty : Ty) :
    K.Fits v ty :=
  fun _ _ _ => ⟨fun _ _ _ => refuses _, fun _ _ _ => refuses _⟩

theorem allows_of_free (refuses : ∀ cause, K.refuses cause) (writes : ∀ i, K.writes i)
    (operation : Operation) : K.Allows functions decl isLast operation := by
  have fits := K.fits_of_refuses refuses
  cases operation with
  | call callee args result =>
    cases callee with
    | direct function =>
      refine fun _ _ => ⟨fun _ _ _ => fits _ _, fun _ _ _ _ _ _ _ => ?_, fun _ => writes _⟩
      exact K.goes_emitExternalCall (fun _ => writes _) (fun _ => writes _) fun _ => writes _
    | indirect pointer => exact ⟨fun _ => writes _, fun _ _ _ _ _ _ _ _ => fits _ _⟩
  | binary op lhs rhs result inPlace => exact fun _ _ _ _ _ _ _ _ _ _ _ _ _ => writes _
  | convert value result => exact fun _ _ _ _ _ _ _ => refuses _
  | assign target value => exact fun _ _ _ => fits _ _
  | store pointer value => exact fun _ _ _ _ _ => fits _ _
  | label target => exact writes _
  | jump target => exact writes _
  | branch cond target jumpIf spillAll => exact fun _ => writes _
  | ret value => exact ⟨fun _ _ => fits _ _, fun _ => writes _⟩
  | _ => trivial

theorem goes_findFunction {function : FunctionId} {f : Declaration → Gen α}
    (rest : ∀ {decl}, functions[function.index]? = some decl → K.goes m c u (f decl)) :
    K.goes m c u (findFunction functions function >>= f) := by
  unfold findFunction
  cases known : functions[function.index]? with
  | some decl => exact rest known
  | none => exact K.goes_stop_then rfl

theorem goes_lowerCall (binds : m ≠ .careful false)
    (allowed : K.Allows functions decl isLast (.call callee args result))
    (admitted : ∀ {v}, result = some v → K.admits v) (places : result.isSome → K.places) :
    K.goes m c (args ++ pointers callee) (lowerCall functions callee args result) := by
  cases callee with
  | direct function =>
    refine K.goes_findFunction fun {called} known => ?_
    obtain ⟨fits, handed, writes⟩ := allowed called known
    cases linkage : called.linkage with
    | external handle =>
      simp only [pointers, append_nil]
      exact K.goes_lowerExternalCall binds (handed handle linkage) fits admitted
    | internal =>
      have calls : K.Calls (some called.start) (.direct function) := by
        rintro _ ⟨⟩
        exact writes linkage
      exact K.goes_lowerInternalCall binds calls fits admitted places
  | indirect pointer =>
    refine K.goes_valueOf fun {_ target} _ known => ?_
    dsimp only
    cases callable : target.ty.signature? with
    | none => exact K.goes_stop rfl
    | some sig =>
      have calls : K.Calls none (.indirect pointer) := allowed.1
      exact K.goes_ite (fun _ => K.goes_stop_then rfl) fun _ => K.goes_lowerInternalCall binds calls
        (allowed.2 _ sig _ known.sees callable) admitted places

theorem goes_lowerOperation {operation : Operation}
    (allowed : K.Allows functions decl isLast operation) (admitted : ∀ {v},
      operation.result? = some v → K.admits v) (places : operation.slotResult?.isSome → K.places) :
    K.goes operation.manner c operation.operands
    (lowerOperation functions decl isLast operation) := by
  have binds : Manner.careful true ≠ .careful false := by decide
  cases operation with
  | binary op lhs rhs result inPlace =>
    exact K.goes_lowerBinary binds
      (fun fresh => admitted (by simp [Operation.result?, fresh])) allowed
  | compare op lhs rhs result => exact K.goes_lowerCompare binds (admitted rfl) op lhs rhs
  | unary op operand result => exact K.goes_lowerUnary binds (admitted rfl) op operand
  | convert value result => exact K.goes_lowerConvert binds (admitted rfl) allowed
  | assign target value => exact K.goes_lowerAssign binds allowed
  | call callee args result =>
    have called : K.goes (.careful true) c (args ++ pointers callee)
        (lowerCall functions callee args result) := K.goes_lowerCall binds allowed admitted places
    cases callee with
    | direct function =>
      rw [pointers, append_nil] at called
      exact called
    | indirect pointer => exact called
  | addressOf value result => exact K.goes_lowerAddressOf binds (admitted rfl) value
  | dereference pointer result =>
    exact K.goes_lowerDereference binds (admitted rfl) (places rfl) pointer
  | store pointer value => exact K.goes_lowerStore binds allowed
  | member pointer offset result => exact K.goes_lowerMember binds (admitted rfl) pointer offset
  | functionAddress function result =>
    exact K.goes_findFunction fun {called} _ => K.goes_lowerFunctionAddress binds
      (admitted rfl) called.start
  | label target | jump target => exact K.goes_seq K.goes_settleAtJoin (K.goes_quiet rfl allowed)
  | branch cond target jumpIf spillAll => exact K.goes_lowerBranch binds cond allowed spillAll
  | ret value => exact K.goes_lowerReturn allowed.1 allowed.2
  | comment text => exact K.goes_comment text

theorem goes_lowerUnchecked {item : BodyItem}
    (allowed : K.Allows functions decl isLast item.operation)
    (admitted : ∀ {v}, item.operation.result? = some v → K.admits v)
    (places : item.operation.slotResult?.isSome → K.places) :
    K.goes item.operation.manner c item.operation.operands
    (lowerUnchecked functions decl item isLast) := by
  unfold lowerUnchecked
  refine K.goes_when (fun _ => K.goes_comment _) (K.goes_seq (K.goes_setLocation _) ?_)
  exact K.goes_first (K.goes_lowerOperation allowed admitted places)
    (K.goes_seq (K.goes_addOperation _) K.goes_releaseEscaped)

theorem goes_bindParameters (binds : m ≠ .careful false) {placed : List (ValueId × ArgumentPlace)}
    (admitted : ∀ {v r}, (v, .register r) ∈ placed → K.admits v) :
    K.goes m c [] (bindParameters placed) := by
  induction placed generalizing c with
  | nil => exact K.goes_pure _
  | cons entry rest ih =>
    have later {c : Context} : K.goes m c [] (bindParameters rest) :=
      ih fun member => admitted (mem_cons_of_mem _ member)
    obtain ⟨param, _ | _⟩ := entry
    · exact K.goes_seq (K.goes_bindRegister _ binds (admitted (mem_cons_self ..)))
        (K.goes_seq (K.goes_markDirty param) later)
    · exact later

end Course

end Gen

end RegisterBackend
