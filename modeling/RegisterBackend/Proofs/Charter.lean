import RegisterBackend.Proofs.Laying

/-!
What a step may do, however it ends. A `Charter` knows the types and constants of the values, which
code may be written and which constructs may be refused; for the charter of a module this shows that
type checking covers lowering.
-/
namespace RegisterBackend

variable {decl : Declaration} {functions : Array Declaration}

structure Charter where
  sees : ValueId → Ty → Option Word → Prop
  code : List Instr → Prop
  refuses : Unsupported → Prop
  code_nil : code []
  code_append : ∀ {first second}, code first → code second → code (first ++ second)
  code_plain : ∀ {i}, i.isPlain = true → code [i]

namespace Charter
open Gen

/-- A step that ended so from `c` did what the charter grants. -/
structure Grants {α : Type} (K : Charter) (c : Context) (result : Except Fault α × Context) :
    Prop where
  shown : result.2.values.Shows K.sees
  code : ∃ run, result.2.code.toList = c.code.toList ++ run ∧ K.code run
  refuses : ∀ ⦃cause⦄, result.1 = .error (.failed (.unsupported cause)) → K.refuses cause

def Obeys {α : Type} (K : Charter) (x : Gen α) : Prop :=
  ∀ ⦃c⦄, c.values.Shows K.sees → K.Grants c (outcome x c)

theorem Obeys.of_runs {α : Type} {K : Charter} {x : Gen α} {c c' : Context} {a : α}
    (obeys : K.Obeys x) (run : Runs x c a c') (shown : c.values.Shows K.sees) :
    c'.values.Shows K.sees ∧ ∃ added, c'.code.toList = c.code.toList ++ added ∧ K.code added := by
  have granted := obeys shown
  rw [show outcome x c = (.ok a, c') from run] at granted
  exact ⟨granted.shown, granted.code⟩

section
variable {α β : Type} {K : Charter} {c : Context} {i : Instr}

theorem Grants.of_same {result : Except Fault α × Context} (shown : result.2.values.Shows K.sees)
    (code : result.2.code = c.code)
    (refuses : ∀ ⦃cause⦄, result.1 = .error (.failed (.unsupported cause)) → K.refuses cause) :
    K.Grants c result :=
  ⟨shown, ⟨[], by simp [code], K.code_nil⟩, refuses⟩

theorem Grants.trans {first : Except Fault α × Context} {second : Except Fault β × Context}
    (granted : K.Grants c first) (rest : K.Grants first.2 second) : K.Grants c second := by
  obtain ⟨run, code, legal⟩ := granted.code
  obtain ⟨run', code', legal'⟩ := rest.code
  refine ⟨rest.shown, ⟨run ++ run', ?_, K.code_append legal legal'⟩, rest.refuses⟩
  rw [code', code, List.append_assoc]

theorem obeys_pure (a : α) : K.Obeys (pure a) := fun _ shown => .of_same shown rfl (by rintro _ ⟨⟩)

theorem obeys_bind {x : Gen α} {f : α → Gen β} (first : K.Obeys x) (rest : ∀ a, K.Obeys (f a)) :
    K.Obeys (x >>= f) := by
  intro c shown
  have granted := first shown
  rw [outcome_bind]
  rcases ran : outcome x c with ⟨fault | a, c1⟩
  · rw [ran] at granted
    refine ⟨granted.shown, granted.code, fun cause stopped => granted.refuses ?_⟩
    cases stopped
    rfl
  · rw [ran] at granted
    exact granted.trans (rest a granted.shown)

theorem obeys_throw {fault : Fault}
    (refused : ∀ cause, fault = .failed (.unsupported cause) → K.refuses cause) :
    K.Obeys (throw fault : Gen α) := by
  refine fun _ shown => .of_same shown rfl fun cause stopped => refused cause ?_
  cases stopped
  rfl

theorem obeys_get {f : Context → Gen α} (rest : ∀ c, c.values.Shows K.sees → K.Obeys (f c)) :
    K.Obeys (get >>= f) := by
  intro c shown
  rw [outcome_get]
  exact rest c shown shown

theorem obeys_modify {f : Context → Context}
    (shown : ∀ c : Context, c.values.Shows K.sees → (f c).values.Shows K.sees)
    (code : ∀ c : Context, (f c).code = c.code) : K.Obeys (modify f : Gen Unit) :=
  fun c held => .of_same (shown c held) (code c) (by rintro _ ⟨⟩)

theorem obeys_ite {p : Prop} [Decidable p] {x y : Gen α} (yes : K.Obeys x) (no : K.Obeys y) :
    K.Obeys (if p then x else y) := by
  split
  · exact yes
  · exact no

theorem obeys_holding {r : Register} {block : Gen α} (inner : K.Obeys block) :
    K.Obeys (holding r block) := by
  intro c shown
  have locked : (c.withLock r true).values.Shows K.sees := shown
  obtain ⟨shown', code, refuses⟩ := inner locked
  exact ⟨shown', code, refuses⟩

theorem obeys_emit (legal : K.code [i]) : K.Obeys (emit i) := by
  refine fun c shown => ⟨shown, ⟨[i], ?_, legal⟩, by rintro _ ⟨⟩⟩
  exact Array.toList_push

theorem obeys_remark (remark : i.isRemark = true) : K.Obeys (emit i) := by
  refine obeys_emit (K.code_plain ?_)
  cases i <;> first | rfl | cases remark

theorem obeys_markLocation (v : ValueId) : K.Obeys (markLocation v) := by
  refine obeys_get fun c _ =>
    obeys_ite (obeys_bind (fun c shown => ?_) fun value => ?_) (obeys_pure _)
  · rw [valueOf, outcome_get]
    cases c.values.get? v with
    | none => exact obeys_throw (by rintro _ ⟨⟩) shown
    | some value => exact obeys_pure value shown
  · split
    · exact obeys_remark rfl
    · exact obeys_pure _

def regime (K : Charter) : Regime where
  holds := K.Obeys
  sees := K.sees
  writes i := K.code [i]
  stops fault := ∀ cause, fault = .failed (.unsupported cause) → K.refuses cause
  writes_plain := K.code_plain
  stops_routine := by
    rintro _ routine cause rfl
    cases routine
  stops_inconsistent _ := by rintro _ ⟨⟩
  holds_pure := obeys_pure
  holds_throw := obeys_throw
  holds_bind := obeys_bind
  holds_holding := obeys_holding
  holds_get _ rest := obeys_get rest
  holds_modify g in_core _ shown := by
    refine obeys_modify shown fun c => ?_
    rw [in_core]
    rfl
  holds_exchange {_ f} _ rest c shown := by
    change K.Grants c (outcome (f c) c)
    rcases rest c with step | ⟨registers, a, _, exchange⟩
    · exact step shown
    · rw [exchange]
      exact .of_same shown rfl (by rintro _ ⟨⟩)
  holds_emit := obeys_emit
  holds_comment _ := obeys_get fun _ _ => obeys_ite (obeys_remark rfl) (obeys_pure _)
  holds_mark step _ := obeys_bind step fun _ => obeys_markLocation _
  holds_addRegister := obeys_modify (fun _ shown => shown) fun _ => rfl
  holds_addSpill := obeys_modify (fun _ shown => shown) fun _ => rfl
  holds_addCall := obeys_modify (fun _ shown => shown) fun _ => rfl
  holds_addOperation _ := obeys_modify (fun _ shown => shown) fun _ => rfl

theorem obeys_checkConsistency : K.Obeys checkConsistency := by
  refine obeys_get fun c _ => ?_
  cases checked : c.check with
  | ok _ => exact obeys_pure _
  | error fault =>
    refine obeys_throw ?_
    rintro cause rfl
    cases Context.isRoutine_of_check checked

def sequence (K : Charter) : Sequence where
  holds x y := K.Obeys x ∧ K.Obeys y
  holds_pure _ _ := ⟨obeys_pure _, obeys_pure _⟩
  holds_bind first rest :=
    ⟨obeys_bind first.1 fun a => (rest a a).1, obeys_bind first.2 fun a => (rest a a).2⟩
  holds_checked :=
    and_self_iff.mpr <| obeys_get fun _ _ => obeys_ite obeys_checkConsistency (obeys_pure _)

def scheme (K : Charter) (free : ∀ i, i.dividesByZero = false → K.code [i]) : Scheme :=
  K.regime.scheme (fun _ => by rintro _ ⟨⟩) free K.sequence.holds_checked.1
    (obeys_get fun _ _ => obeys_pure _)
    fun _ _ => obeys_modify (fun _ shown => shown) fun _ => rfl

end

end Charter

/-- Nothing is refused to values of these types. -/
def Charter.unbound (types : ValueId → Ty) : Charter where
  sees v ty _ := types v = ty
  code _ := True
  refuses _ := False
  code_nil := trivial
  code_append _ _ := trivial
  code_plain _ := trivial

namespace Ty

theorem bank_of_assignable {source ty : Ty} (assignable : source.assignable ty = true)
    (scalar : (source.isScalar && ty.isScalar) = true) : source.bank = ty.bank := by
  rw [← isScalar_unqualified source, ← isScalar_unqualified ty] at scalar
  rw [← source.alike_unqualified.bank, ← ty.alike_unqualified.bank]
  rw [Ty.assignable.eq_def] at assignable
  split at assignable
  · next is_int => rw [is_int, bank_of_isInteger assignable]; rfl
  · next is_bool => rw [is_bool, bank_of_isInteger assignable]; rfl
  all_goals simp_all [isScalar, isInteger, isFloat, isPointer, bank]

end Ty

theorem Gen.Course.converts_of_assignable {K : Gen.Course} {source ty : Ty}
    (assignable : source.assignable ty = true) : K.Converts source ty where
  reinterpretation _ scalar differ := (differ (Ty.bank_of_assignable assignable scalar)).elim
  implicitConversion direct plain differ :=
    (differ (Ty.alike_of_assignable assignable plain direct).size).elim

namespace BinaryOp
variable {op : BinaryOp} {left right ty : Ty} {divisor : Option Word}

theorem result_of_isDivision (legal : op.result left right divisor = .ok ty)
    (int : left.isFloat = false ∨ right.isFloat = false) (divides : op.isDivision = true) :
    left.isPointer = false ∧ right.isPointer = false ∧ divisor ≠ some 0 := by
  have number : op ≠ .add ∧ op ≠ .sub := by cases op <;> simp_all [isDivision]
  rw [left.isPointer_eq, right.isPointer_eq]
  unfold result at legal
  split at legal
  · cases legal
  · split at legal
    · cases legal
    · next same =>
      have int : left.isFloat = false := by simp_all
      simp only [int, Bool.false_eq_true, ↓reduceIte] at legal
      split at legal
      · simp [differenceResult, number] at legal
      · simp [displacementResult, number] at legal
      · simp [displacementResult, number] at legal
      · next plain plain' =>
        refine ⟨by rw [plain]; rfl, by rw [plain']; rfl, ?_⟩
        rintro rfl
        simp [integerResult, divides] at legal

theorem not_risks_of_result (legal : op.result left right divisor = .ok ty)
    (int : left.isFloat = false) : ¬ op.Risks left right divisor := by
  rintro ⟨divides, risk⟩
  obtain ⟨plain, plain', nonzero⟩ := result_of_isDivision legal (.inl int) divides
  simp only [plain, plain', Bool.false_eq_true, false_or] at risk
  exact nonzero risk

end BinaryOp
namespace Module
open Gen

variable {m : Module}

def CrossesFloats (source target : Ty) : Prop :=
  (source.isFloat = true ∧ target.isPointer = true)
    ∨ (source.isPointer = true ∧ target.isFloat = true)

/-- No division by an immediate zero may be written, and only conversions between floats and
pointers refused. -/
def charter (m : Module) : Charter where
  sees v ty bits := m.types v = ty ∧ m.constant? v = bits
  code run := ∀ i ∈ run, i.dividesByZero = false
  refuses cause := ∃ decl v result, decl ∈ m.functions.toList ∧ .convert v result ∈ decl.operations
    ∧ cause = .conversion (m.types v) (m.types result) ∧ CrossesFloats (m.types v) (m.types result)
  code_nil := by simp
  code_append first second := List.forall_mem_append.mpr ⟨first, second⟩
  code_plain {i} plain := by
    simp only [List.mem_singleton, forall_eq]
    cases i with
    | aluImm op dst imm => exact (Bool.not_eq_true' _).mp plain
    | _ => rfl

theorem charter_writes (m : Module) {i : Instr} (sound : i.dividesByZero = false) :
    m.charter.code [i] :=
  List.forall_mem_singleton.mpr sound

theorem Vets.allows {operation : Operation} (known : decl ∈ m.functions.toList)
    (listed : operation ∈ decl.operations)
    (vets : m.Vets decl.signature operation) (isLast : Bool) :
    m.charter.regime.course.Allows m.functions decl isLast operation := by
  obtain ⟨b, made, admits, same, old, new, functions⟩ := vets.admitted
  have fits {v : ValueId} {value : Value} {ty : Ty} (found : b.context.values.get? v = some value)
      (assignable : value.ty.assignable ty = true) : m.charter.regime.course.Fits v ty := by
    intro other _ seen
    have is_type : other = value.ty := Eq.trans (Eq.symm seen.1) (old found).1
    rw [is_type]
    exact Course.converts_of_assignable assignable
  have passed {args : List ValueId} {params : List Ty} (passes : b.Passes args params) :
      ∀ v ty, (v, ty) ∈ args.zip params → m.charter.regime.course.Fits v ty := by
    intro v ty member
    obtain ⟨value, reads, assignable⟩ := List.forall₂_zip passes member
    exact fits reads.1 assignable
  have divides {op : BinaryOp} {lhs rhs : ValueId} {left right : Value} {ty : Ty}
      {result : ValueId} {inPlace : Bool}
      (found : b.context.values.get? lhs = some left)
        (found' : b.context.values.get? rhs = some right)
      (legal : op.result left.ty right.ty right.constant? = .ok ty) :
      m.charter.regime.course.Allows m.functions decl isLast
        (.binary op lhs rhs result inPlace) := by
    rintro _ _ seen int _ _ _ _ ⟨rfl, rfl⟩ ⟨rfl, rfl⟩ risks
    rw [← seen.1, (old found).1] at int
    rw [(old found).1, (old found').1, (old found').2] at risks
    exact (BinaryOp.not_risks_of_result legal int risks).elim
  cases admits with
  | @binary op lhs rhs left right ty reads reads' legal swap swapped =>
    cases swap with
    | false => exact divides reads.1 reads'.1 legal
    | true =>
      simp only [Bool.true_eq, Bool.and_eq_true, Bool.not_eq_true'] at swapped
      rintro _ _ seen int _ _ _ _ ⟨rfl, rfl⟩ ⟨rfl, rfl⟩ ⟨divides, -⟩
      have number : right.ty.isFloat = false := by
        rw [← (old reads'.1).1, show m.types rhs = _ from seen.1]
        exact int
      have plain := BinaryOp.result_of_isDivision legal (.inr number) divides
      simp [swapped.1] at plain
  | update reads reads' is_named mutable legal => exact divides reads.1 reads'.1 legal
  | @convert v value ty reads legal =>
    rintro source target _ _ ⟨seen, _⟩ ⟨seen', _⟩ crosses
    have scalar : source.isScalar = true := by rw [← seen, (old reads.1).1]; exact legal.1
    have scalar' : target.isScalar = true := by
      rw [← seen', (new rfl).1, Value.ofTemporary, Ty.isScalar_unqualified]
      exact legal.2
    have crosses : CrossesFloats source target := by
      simpa [Course.Inconvertible, scalar, scalar', CrossesFloats] using crosses
    rintro _ ⟨⟩
    refine ⟨decl, v, b.next, known, listed, ?_⟩
    rw [seen, seen']
    exact ⟨rfl, crosses⟩
  | @assign target v previous value named found reads is_named mutable legal =>
    intro previous' _ seen
    have is_type : previous' = previous.ty := Eq.trans (Eq.symm seen.1) (old found).1
    exact fits reads.1 (is_type ▸ legal)
  | @call function callee args is_callee passes makes value =>
    obtain ⟨callee', known', face⟩ := functions is_callee
    intro other known''
    obtain rfl := Option.mem_unique known' known''
    refine ⟨?_, fun _ _ _ _ _ _ _ => ?_, fun _ => m.charter_writes rfl⟩
    · rw [Declaration.signature_of_face face]
      exact passed passes
    · exact m.charter.regime.course.goes_emitExternalCall (fun _ => m.charter_writes rfl)
        (fun _ => m.charter_writes rfl) fun _ => m.charter_writes rfl
  | @callIndirect ptr target sig args reads is_function passes makes value =>
    refine ⟨fun _ => m.charter_writes rfl, fun target' sig' _ seen callable => ?_⟩
    have is_type : target' = target.ty := Eq.trans (Eq.symm seen.1) (old reads.1).1
    rw [is_type, is_function] at callable
    exact Option.some.inj callable ▸ passed passes
  | @store ptr v target value pointee reads reads' legal mutable assignable =>
    intro target' pointee' _ seen is_pointee
    have is_type : target' = target.ty := Eq.trans (Eq.symm seen.1) (old reads.1).1
    rw [is_type, (Option.filter_eq_some_iff.mp legal).1] at is_pointee
    exact Option.some.inj is_pointee ▸ fits reads'.1 assignable
  | @ret v value reads legal =>
    refine ⟨?_, fun _ => m.charter_writes rfl⟩
    rintro _ ⟨⟩
    exact same ▸ fits reads.1 legal
  | leave => exact ⟨by rintro _ ⟨⟩, fun _ => m.charter_writes rfl⟩
  | label | jump => exact m.charter_writes rfl
  | branch => exact fun _ => m.charter_writes rfl
  | _ => trivial

theorem obeys_charter (vetted : m.Vetted) :
    m.context.values.Shows m.charter.sees ∧ m.charter.Obeys (lowerModule m.functions m.entry) := by
  refine ⟨fun v value found => types_of_core ⟨value, found, rfl⟩, ?_⟩
  refine ((m.charter.scheme fun _ => m.charter_writes).holds_lowerModule m.entry
    fun decl member item within isLast => and_self_iff.mpr ?_).1
  obtain ⟨index, bound, rfl⟩ := List.mem_iff_getElem.mp member
  have known : m.function? ⟨index⟩ = some (m.functions.toList[index]) := by simp [function?]
  have listed := List.mem_map_of_mem (f := BodyItem.operation) within
  exact m.charter.regime.holds_lowerUnchecked
    (((vetted.bodies known).vets _ listed).allows member listed isLast)

/-- Lowering refuses nothing that passed the checks of construction but conversions between floats
and pointers. Where a value may be assigned, it can be copied. -/
theorem refuses_only_crossings (options : Options) (file : String) (calls : List ModuleCall) :
    let m := build options file calls
    (∀ cause, m.finish = .error (.failed (.unsupported cause)) →
      ∃ decl ∈ m.functions, ∃ v result, .convert v result ∈ decl.operations
        ∧ CrossesFloats (m.types v) (m.types result)
          ∧ cause = .conversion (m.types v) (m.types result))
      ∧ ∀ (c : Context) (v : ValueId) (value : Value) (position : Position) (ty : Ty)
        (cause : Unsupported),
        c.values.get? v = some value → value.ty.assignable ty = true →
          ((copyConverted v position ty).run c).1 ≠ .error (.failed (.unsupported cause)) := by
  intro m
  constructor
  · intro cause refused
    obtain ⟨shown, obeys⟩ := obeys_charter (vetted_build options file calls)
    obtain ⟨_, ⟨⟩⟩ | ⟨⟨⟩⟩ | ⟨_, run⟩ := stopped_of_finish refused
    have stopped := congrArg Prod.fst run
    obtain ⟨decl, v, result, member, listed, is_cause, crosses⟩ := (obeys shown).refuses stopped
    exact ⟨decl, Array.mem_toList_iff.mp member, v, result, listed, crosses, is_cause⟩
  · intro c v value position ty cause found assignable stopped
    let types (w : ValueId) : Ty := ((c.values.get? w).map Value.ty).getD .void
    have shown : c.values.Shows (Charter.unbound types).sees := fun _ _ found => by
      change types _ = _
      simp [types, found]
    have fits : (Charter.unbound types).regime.course.Fits v ty := by
      intro other _ seen
      have is_type : other = value.ty := Eq.trans (Eq.symm seen) (shown found)
      rw [is_type]
      exact Course.converts_of_assignable assignable
    exact (Course.goes_copyConverted _ (m := .parting)
      (c := default) fits position shown).refuses stopped

def castCalls : List ModuleCall :=
  [.declare "cast" ⟨[.float 8], .pointer .i64⟩ .internal 1,
    .define ⟨0⟩ ["x"] 2 [.convert ⟨0⟩ (.pointer .i64), .ret (some ⟨1⟩)] true]

theorem refuses_only_crossings_cast : (build {} "cast.c" castCalls).finish
    = .error (.failed (.unsupported (.conversion (.float 8) (.pointer .i64))))
      ∧ ∃ decl ∈ (build {} "cast.c" castCalls).functions, ∃ v result,
      .convert v result ∈ decl.operations
        ∧ (build {} "cast.c" castCalls).types v = .float 8
        ∧ (build {} "cast.c" castCalls).types result = .pointer .i64 := by
  have refused : (build {} "cast.c" castCalls).finish
      = .error (.failed (.unsupported (.conversion (.float 8) (.pointer .i64)))) := by
    have stops : (build {} "cast.c" castCalls).finish.map (fun _ => ())
        = .error (.failed
          (.unsupported (.conversion (.float 8) (.pointer .i64)))) := by decide +kernel
    cases finished : (build {} "cast.c" castCalls).finish with
    | error fault =>
      rw [finished] at stops
      injection stops with is_fault
      rw [is_fault]
    | ok program =>
      rw [finished] at stops
      cases stops
  obtain ⟨decl, member, v, result, listed, -, is_cause⟩ :=
    (refuses_only_crossings {} "cast.c" castCalls).1 _ refused
  injection is_cause with is_source is_target
  exact ⟨refused, decl, member, v, result, listed, is_source.symm, is_target.symm⟩

/-- Finished programs never divide by an immediate zero: what a division by an immediate has there
is a constant other than zero, of whatever width and wherever its operands were. -/
theorem finish_divides_by_nonzero {options : Options} {file : String} {calls : List ModuleCall}
    {program : Program} (finished : (build options file calls).finish = .ok program)
    {op : AluOp} (divides : op = .divS ∨ op = .divU ∨ op = .remS ∨ op = .remU)
    {dst : Register} {imm : Imm} (emitted : .aluImm op dst imm ∈ program.instrs) :
    ∃ bits, imm = .value bits ∧ bits ≠ 0 := by
  obtain ⟨shown, obeys⟩ := obeys_charter (vetted_build options file calls)
  obtain ⟨ranges, c, run, instrs, -⟩ := lowered_of_finish finished
  obtain ⟨-, added, code, sound⟩ := obeys.of_runs run shown
  rw [instrs, code] at emitted
  have division : op.isDivision = true := by rcases divides with rfl | rfl | rfl | rfl <;> rfl
  have nonzero : (Instr.aluImm op dst imm).dividesByZero = false := sound _ emitted
  cases imm with
  | value bits =>
    refine ⟨bits, rfl, ?_⟩
    rintro rfl
    simp [Instr.dividesByZero, division] at nonzero
  | constantAddress id => cases division.symm.trans nonzero
  | labelAddress label => cases division.symm.trans nonzero

/-- A third of the distance between two elements of an array, assigned in place. -/
def thirdCalls : List ModuleCall :=
  [.declare "third" ⟨[.pointer .i64, .pointer .i64], .i64⟩ .internal 1,
    .define ⟨0⟩ ["p", "q"] 2
      [.newVariable .i64 "n", .binary .sub ⟨0⟩ ⟨1⟩, .assign ⟨2⟩ ⟨3⟩, .constant .i64 3,
      .update .div ⟨2⟩ ⟨4⟩, .ret (some ⟨2⟩)] true]

theorem finish_divides_by_nonzero_third :
    ∃ program, (build {} "third.c" thirdCalls).finish = .ok program
      ∧ .aluImm .divS (.int 2) (.value 8) ∈ program.instrs ∧ .aluImm .divS (.int 2)
      (.value 3) ∈ program.instrs
      ∧ ∀ dst imm, .aluImm .divS dst imm ∈ program.instrs →
      ∃ bits, imm = .value bits ∧ bits ≠ 0 := by
  obtain ⟨program, finished, eight, three⟩ :
    ∃ program, (build {} "third.c" thirdCalls).finish = .ok program
      ∧ .aluImm .divS (.int 2) (.value 8) ∈ program.instrs
      ∧ .aluImm .divS (.int 2) (.value 3) ∈ program.instrs := exists_program (by decide +kernel)
  exact ⟨program, finished, eight, three,
    fun _ _ emitted => finish_divides_by_nonzero finished (.inl rfl) emitted⟩

end Module

end RegisterBackend
