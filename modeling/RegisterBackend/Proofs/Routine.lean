import RegisterBackend.Proofs.Operators

/-!
Whole functions without jumps. The operations of a body are simulated one after the other,
and the return leaves its value in the result register.
-/
namespace RegisterBackend

open Gen Discipline Leads

variable {body items : List BodyItem} {decl : Declaration} {frame : FrameId}
  {functions : Array Declaration} {inPlace isLast : Bool} {item : BodyItem} {loc : Location}
  {operation : Operation} {range : Nat × Nat} {types : ValueId → Ty}

variable {hw : Hardware} {p : Placement} {env : ValueId → Word} {c c1 c' : Context}
  {s s1 : MachineState} {v result : ValueId} {r : Register} {u : Unit} {ty : Ty}

theorem dropAll_quiet (run : Runs (dropAll false) c u c') :
    (∀ t, Executes hw p c t c' t) ∧ ∀ r, c'.registers.occupant? r = none := by
  refine ⟨?_, occupant?_of_dropAll run⟩
  simp only [dropAll, runs_bind, runs_get, runs_pure, and_assoc, exists_and_left,
    exists_eq_left] at run
  obtain ⟨_, _, loop, _, rfl⟩ := run
  refine forIn_invariant (fun _ c1 => ∀ t, Executes hw p c t c1 t) ?_ (fun _ => .of_code rfl) loop
  rintro ⟨r, v⟩ rest c1 step c2 quiet round
  simp only [runs_bind, runs_valueOf, Bool.false_and, Bool.false_eq_true, ↓reduceIte, runs_discard,
    runs_pure, and_assoc, exists_and_left, exists_eq_left] at round
  obtain ⟨value, found, _, _, ⟨w, unbound⟩, rfl, rfl⟩ := round
  obtain ⟨_, _, _, _, _, _, remarks, only, rfl⟩ := runs_unbindRegister unbound
  exact ⟨rfl, fun t => (quiet t).trans (.remarks (fun i member => (only i member).remark) rfl)⟩

theorem retireRegisters_quiet (local_vars : c.IsLocal) (run : Runs retireRegisters c u c') :
    (∀ t, Executes hw p c t c' t) ∧ ∀ r, c'.registers.occupant? r = none := by
  simp only [retireRegisters, runs_bind, runs_get, and_assoc, exists_and_left,
    exists_eq_left] at run
  obtain ⟨_, c1, loop, dropped⟩ := run
  have retired :=
    forIn_invariant (fun _ (c1 : Context) => c1.IsLocal ∧ ∀ t, Executes hw p c t c1 t) ?round
    ⟨local_vars, fun _ => .of_code rfl⟩ loop
  case round =>
    rintro ⟨r, v⟩ rest c1 step c2 ⟨local_vars, quiet⟩ round
    simp only [runs_bind, runs_pure] at round
    obtain ⟨_, c3, forgotten, rfl, rfl⟩ := round
    refine ⟨rfl, (of_walks (walks_retireOccupant v) forgotten).isLocal
      local_vars, fun t => (quiet t).trans ?_⟩
    obtain ⟨value, found, forgotten⟩ := runs_valueOf_bind.mp forgotten
    cases is_named : value.named? with
    | none =>
      simp only [is_named, runs_pure] at forgotten
      exact .of_code (by rw [forgotten.2])
    | some data =>
      simp only [is_named, (local_vars found is_named).1, ↓reduceIte] at forgotten
      obtain ⟨_, forgotten⟩ | ⟨_, forgotten⟩ := runs_ite.mp forgotten
      · obtain ⟨_, rfl⟩ := runs_updateValue.mp forgotten
        exact .of_code rfl
      · exact .of_code (by rw [(runs_pure.mp forgotten).2])
  · obtain ⟨quiet, empty⟩ := dropAll_quiet (p := p) dropped
    exact ⟨fun t => (retired.2 t).trans (quiet t), empty⟩

theorem Declaration.layout_result (plain : decl.signature.result.isPlain = true) :
    decl.layout.result = .register (.int 0) := by
  have not_struct : decl.signature.result.isStruct = false := by
    obtain eq | ⟨size, signed, eq⟩ := Ty.eq_of_isPlain plain <;> rw [eq] <;> rfl
  simp [layout, CallLayout.ofSignature, Convention.placeResult, Ty.isVoid_of_isPlain plain,
    not_struct, PassingClass.ofTy, Ty.isFloat_of_isPlain plain, Ty.isInteger_of_isPlain plain,
    Ty.fitsRegister_of_isPlain plain, Convention.resultRegister?]

theorem returnInRegister_executes (mirrors : Mirrors hw p env c s) (plain : ty.isPlain = true)
    (bank : r.bank = .int) (run : Runs (returnInRegister v r ty) c u c')
    (separate : p.Separates c'.extent) :
    ∃ s', Executes hw p c s c' s' ∧ s'.registers r = ty.canonicalBits (env v)
      ∧ ∀ q, c'.registers.occupant? q = none := by
  obtain ⟨value, found, run⟩ := runs_valueOf_bind.mp run
  rw [runs_ite_then] at run
  obtain ⟨_, c1, displaced, held⟩ := run
  obtain ⟨c3, block, rfl⟩ := runs_holding.mp held
  obtain ⟨c0, c2, enter, inner, leave, _⟩ := runs_holdingRegisterOf block
  simp only [runs_bind, runs_discard] at inner
  obtain ⟨_, c4, copied, _, c5, ⟨n, consumed⟩, retired⟩ := inner
  -- What was in the register moves elsewhere.
  have leads_rest : Leads c1 c2 := by
    have copy := of_walks (walks_copyConverted v _ ty) copied
    have use := of_walks (walks_consume v) consumed
    have retire := of_walks walks_retireRegisters retired
    exact (Leads.withLock c1 r true).trans (enter.leads.trans (copy.trans (use.trans retire)))
  have separate2 : p.Separates c2.extent := by
    have same : (c3.withLock r (c1.registers.isLocked r)).extent = c2.extent := leave.extent
    rwa [same] at separate
  obtain ⟨s1, ran1, mirrors1⟩ : ∃ s1, Executes hw p c s c1 s1 ∧ Mirrors hw p env c1 s1 := by
    obtain ⟨_, displaced⟩ | ⟨_, displaced⟩ := runs_ite.mp displaced
    · have walked := walks_displace (D := .homed) r _ _ mirrors.homed displaced
      obtain ⟨carries, _⟩ : Carries hw p id c c1 ∧ _ := displace_carries displaced
      obtain ⟨s1, ran, tracks, _⟩ := carries mirrors.tracks (separate2.mono leads_rest.extent)
      exact ⟨s1, ran, mirrors.after walked.1 walked.2.1 tracks⟩
    · obtain ⟨_, rfl⟩ := runs_pure.mp displaced
      exact ⟨s, .of_code rfl, mirrors⟩
  obtain ⟨s5, mirrors5, _, ran5⟩ := convertAndConsume_executes
    ((mirrors1.withLock r true).relocks enter) bank plain copied consumed
  obtain ⟨quiet, empty⟩ : (∀ t, Executes hw p c5 t c2 t) ∧ _ :=
    retireRegisters_quiet mirrors5.lawful.isLocal retired
  refine ⟨_, ran1.trans ((Executes.of_code rfl).trans ((Executes.of_code enter.code).trans
    (ran5.trans ((quiet _).trans ((Executes.of_code leave.code).trans (.of_code rfl)))))), by simp,
    fun q => ?_⟩
  have same := congrFun (congrArg Books.occupant leave.books) q
  simp only [Context.withLock, RegisterFile.occupant?_setLocked]
  exact same.trans (empty q)

def Context.Variable (c : Context) (v : ValueId) (ty : Ty) : Prop :=
  ∃ value, c.values.get? v = some value ∧ value.isNamed = true ∧ value.ty = ty

theorem Context.Variable.of_keeps (variable_v : c.Variable v ty)
    (keeps : c.values.Keeps c'.values) : c'.Variable v ty := by
  obtain ⟨value, found, is_named, rfl⟩ := variable_v
  obtain ⟨value', found', same_ty, nature⟩ := keeps found
  exact ⟨value', found', (Value.isNamed_eq_of_nature nature).trans is_named, same_ty⟩

/-- The operation computes an integer or a truth value from others and goes on to the next.
Only a truth value on its left makes the result of a binary operator one. -/
def Operation.IsStraight (c : Context) : Operation → Prop
  | .binary _ lhs _ result inPlace => ∃ ty left, c.values.get? lhs = some left
      ∧ (ty.isBool = true → left.ty.isBool = true)
      ∧ if inPlace then result = lhs ∧ c.Variable result ty else c.Temporary result ty
  | .compare _ _ _ result => ∃ ty, ty.isBool = true ∧ c.Temporary result ty
  | .unary op _ result => ∃ ty, ty.isBool = decide (op = .logicalNot) ∧ c.Temporary result ty
  | .convert _ result => ∃ ty, c.Temporary result ty
  | .assign _ _ => True
  | _ => False

theorem Operation.IsStraight.of_keeps (straight : operation.IsStraight c)
    (keeps : c.values.Keeps c'.values) : operation.IsStraight c' := by
  cases operation with
  | binary op lhs rhs result inPlace =>
    obtain ⟨ty, left, found, truth, kind⟩ := straight
    obtain ⟨left', found', same_ty, _⟩ := keeps found
    refine ⟨ty, left', found', same_ty.symm ▸ truth, ?_⟩
    cases inPlace with
    | true => exact ⟨kind.1, kind.2.of_keeps keeps⟩
    | false => exact Context.Temporary.of_keeps kind keeps
  | compare op lhs rhs result | unary op operand result =>
    obtain ⟨ty, truth, temporary⟩ := straight
    exact ⟨ty, truth, temporary.of_keeps keeps⟩
  | convert value result =>
    obtain ⟨ty, temporary⟩ := straight
    exact ⟨ty, temporary.of_keeps keeps⟩
  | assign target value => trivial
  | _ => exact straight.elim

/-- No binary operator has a truth value on its left. -/
def Operation.IsNumeric (types : ValueId → Ty) : Operation → Prop
  | .binary _ lhs _ _ _ => (types lhs).isBool = false
  | _ => True

/-- A binary operator makes a truth value only of what is one anyway. -/
def Operation.Fits (hw : Hardware) (types : ValueId → Ty) (env : ValueId → Word) : Operation → Prop
  | .binary op lhs rhs result _ => (types result).isBool = true →
      (types result).canonicalBits ((op.aluOp (types result).isSigned).eval hw (env lhs) (env rhs))
        = (op.aluOp (types result).isSigned).eval hw (env lhs) (env rhs)
  | _ => True

def Context.Typed (c : Context) (types : ValueId → Ty) : Prop :=
  ∀ {v value}, c.values.get? v = some value → types v = value.ty

theorem Leads.typed (leads : Leads c c') (typed : c.Typed types) : c'.Typed types := by
  intro v value' found'
  obtain ⟨value, found, ages⟩ := leads.before found'
  rw [typed found, ages.ty]

theorem Operation.IsStraight.binary_result {op : BinaryOp} {lhs rhs : ValueId}
    (straight : (Operation.binary op lhs rhs result inPlace).IsStraight c) :
    ∃ value left, c.values.get? result = some value ∧ c.values.get? lhs = some left
      ∧ (value.ty.isBool = true → left.ty.isBool = true)
      ∧ if inPlace then result = lhs ∧ value.isNamed = true else value.kind = .temporary := by
  obtain ⟨ty, left, found_left, truth, kind⟩ := straight
  cases inPlace with
  | true =>
    obtain ⟨same, value, found, is_named, rfl⟩ := kind
    exact ⟨value, left, found, found_left, truth, same, is_named⟩
  | false =>
    obtain ⟨value, found, temporary, rfl⟩ := kind
    exact ⟨value, left, found, found_left, truth, temporary⟩

theorem Operation.IsNumeric.fits (numeric : operation.IsNumeric types) (typed : c.Typed types)
    (straight : operation.IsStraight c) : operation.Fits hw types env := by
  cases operation with
  | binary op lhs rhs result inPlace =>
    obtain ⟨value, left, found, found_left, truth, _⟩ := straight.binary_result
    intro is_bool
    rw [typed found] at is_bool
    rw [IsNumeric, typed found_left, truth is_bool] at numeric
    cases numeric
  | _ => trivial

theorem lowerOperation_mirrors (mirrors : Mirrors hw p env c s) (typed : c.Typed types)
    (straight : operation.IsStraight c) (fits : operation.Fits hw types env)
    (run : Runs (lowerOperation functions decl isLast operation) c u c')
    (separate : p.Separates c'.extent) :
    ∃ s', Executes hw p c s c' s' ∧ Mirrors hw p (operation.eval hw types env) c' s' := by
  cases operation with
  | binary op lhs rhs result inPlace =>
    obtain ⟨value, _, found, _, _, kind⟩ := straight.binary_result
    rw [Operation.Fits, typed found] at fits
    rw [Operation.eval, typed found]
    exact lowerBinary_mirrors mirrors found fits kind run separate
  | compare op lhs rhs result =>
    obtain ⟨ty, truth, temporary⟩ := straight
    obtain ⟨left, found⟩ : ∃ left, c.values.get? lhs = some left := by
      obtain ⟨left, found, _⟩ := runs_valueOf_bind.mp run
      exact ⟨left, found⟩
    rw [Operation.eval, typed found]
    exact lowerCompare_mirrors mirrors temporary truth found run separate
  | unary op operand result =>
    obtain ⟨ty, truth, temporary⟩ := straight
    obtain ⟨value, found, _, rfl⟩ := id temporary
    rw [Operation.eval, typed found]
    exact lowerUnary_mirrors mirrors temporary truth run separate
  | convert value result =>
    obtain ⟨ty, temporary⟩ := straight
    obtain ⟨target, found, _, rfl⟩ := id temporary
    rw [Operation.eval, typed found]
    exact lowerConvert_mirrors mirrors temporary run separate
  | assign target value =>
    obtain ⟨old, found⟩ : ∃ old, c.values.get? target = some old := by
      obtain ⟨old, found, _⟩ := runs_valueOf_bind.mp run
      exact ⟨old, found⟩
    rw [Operation.eval, typed found]
    exact lowerAssign_mirrors mirrors found run separate
  | _ => exact straight.elim

/-- Nothing but remarks was written, and nothing that matters later was changed. -/
structure Context.Annotates (c c' : Context) : Prop where
  leads : Leads c c'
  values : c'.values = c.values
  registers : c'.registers = c.registers
  extent : c'.extent = c.extent
  code : ∃ remarks : List Instr, (∀ i ∈ remarks, i.isRemark = true) ∧ c'.code = c.code ++ remarks

theorem Context.Annotates.executes (annotates : c.Annotates c') (t : MachineState) :
    Executes hw p c t c' t := by
  obtain ⟨remarks, only, code⟩ := annotates.code
  exact .remarks only code

theorem Mirrors.annotated (mirrors : Mirrors hw p env c s) (annotates : c.Annotates c') :
    Mirrors hw p env c' s := by
  have books : c'.books = c.books :=
    Context.books_eq annotates.values (fun _ => by rw [annotates.registers]) annotates.extent
  have homed : c'.Homed := fun found => mirrors.homed (annotates.values ▸ found)
  exact mirrors.after homed annotates.leads (books ▸ mirrors.tracks)

theorem Gen.runs_lowerItem (run : Runs (lowerItem functions decl item isLast) c u c') :
    ∃ c0 c1 c2, c.Annotates c0 ∧ Runs (lowerOperation functions decl isLast item.operation) c0 () c1
      ∧ c1.Annotates c2 ∧ Runs releaseEscaped c2 () c' := by
  simp only [lowerItem] at run
  rw [runs_ite_then] at run
  obtain ⟨_, c0, commented, run⟩ := run
  obtain ⟨remarks, only, rfl⟩ : ∃ remarks : List Instr, (∀ i ∈ remarks, i.isRemark = true)
      ∧ c0 = c.appended remarks := by
    obtain ⟨_, commented⟩ | ⟨_, commented⟩ := runs_ite.mp commented
    · obtain ⟨remarks, only, rfl⟩ := runs_comment commented
      exact ⟨remarks, fun i member => (only i member).remark, rfl⟩
    · exact ⟨[], by simp, by simp [(runs_pure.mp commented).2, Context.appended]⟩
  simp only [runs_bind, runs_setLocation, runs_record, runs_get] at run
  obtain ⟨_, _, located, _, c1, lowered, _, c2, counted, _, c3, released, _, _,
    ⟨_, same⟩, checked⟩ :=
    run
  rw [same] at checked
  have unchanged : c' = c3 := by
    obtain ⟨_, checked⟩ | ⟨_, checked⟩ := runs_ite.mp checked
    · exact runs_checkConsistency checked
    · exact (runs_pure.mp checked).2
  rw [← unchanged] at released
  refine ⟨_, c1, c2, ?_, lowered, ?_, released⟩
  · subst located
    exact ⟨.of_same rfl rfl (by simp [Context.appended]) rfl rfl rfl rfl, rfl, rfl,
      rfl, remarks, only,
      rfl⟩
  · subst counted
    exact ⟨.of_same rfl rfl List.prefix_rfl rfl rfl rfl rfl, rfl, rfl, rfl, [], by simp, by simp⟩

theorem releaseEscaped_mirrors (mirrors : Mirrors hw p env c s) (run : Runs releaseEscaped c u c')
    (separate : p.Separates c'.extent) :
    ∃ s', Executes hw p c s c' s' ∧ Mirrors hw p env c' s' := by
  have walked := walks_releaseEscaped (D := .homed) _ _ mirrors.homed run
  obtain ⟨room, _⟩ : MakesRoom hw p _ id c c' ∧ _ := releaseEscaped_room run
  obtain ⟨s', ran, tracks, _⟩ := room.carries mirrors.tracks separate
  exact ⟨s', ran, mirrors.after walked.1 walked.2.1 tracks⟩

theorem lowerItem_mirrors (mirrors : Mirrors hw p env c s) (typed : c.Typed types)
    (straight : item.operation.IsStraight c) (fits : item.operation.Fits hw types env)
    (run : Runs (lowerItem functions decl item isLast) c u c') (separate : p.Separates c'.extent) :
    ∃ s', Executes hw p c s c' s' ∧ Mirrors hw p (item.operation.eval hw types env) c' s' := by
  obtain ⟨c0, c1, c2, started, lowered, counted, released⟩ := runs_lowerItem run
  have leads : Leads c1 c' :=
    counted.leads.trans (.of_walks walks_releaseEscaped released)
  obtain ⟨s1, ran1, mirrors1⟩ := lowerOperation_mirrors (mirrors.annotated started)
    (started.leads.typed typed) (straight.of_keeps started.leads.keeps) fits lowered
    (separate.mono leads.extent)
  obtain ⟨s', ran', mirrors'⟩ :=
    releaseEscaped_mirrors (mirrors1.annotated counted) released separate
  exact ⟨s', (started.executes s).trans (ran1.trans ((counted.executes s1).trans ran')), mirrors'⟩

theorem lowerItem_return (mirrors : Mirrors hw p env c s)
    (plain : decl.signature.result.isPlain = true) (run : Runs (lowerItem functions decl
      ⟨.ret (some v), loc⟩ true) c u c') (separate : p.Separates c'.extent) :
    ∃ s', Executes hw p c s c' s'
      ∧ s'.registers (.int 0) = decl.signature.result.canonicalBits (env v) := by
  obtain ⟨c0, c1, c2, started, lowered, counted, released⟩ := runs_lowerItem run
  have leads : Leads c1 c' :=
    counted.leads.trans (.of_walks walks_releaseEscaped released)
  simp only [lowerOperation, lowerReturn, Declaration.layout_result plain, runs_bind, Bool.not_true,
    Bool.false_eq_true, ↓reduceIte, runs_pure] at lowered
  obtain ⟨_, _, returned, _, rfl⟩ := lowered
  obtain ⟨s', ran, content, empty⟩ :=
    returnInRegister_executes (mirrors.annotated started) plain rfl
    returned (separate.mono leads.extent)
  obtain rfl := releaseEscaped_of_empty (fun q => by rw [counted.registers, empty]) released
  exact ⟨s', (started.executes s).trans (ran.trans (counted.executes s')), content⟩

/-- Runs a list of operations up to the first return, which gives a word of the result type. -/
def Operation.interpret (hw : Hardware) (types : ValueId → Ty) (result : Ty)
    (env : ValueId → Word) : List Operation → Option Word
  | [] => none
  | .ret (some v) :: _ => some (result.canonicalBits (env v))
  | operation :: rest => interpret hw types result (operation.eval hw types env) rest

theorem Operation.IsStraight.interpret_cons (straight : operation.IsStraight c)
    (types : ValueId → Ty) (rest : List Operation) :
    Operation.interpret hw types ty env (operation :: rest)
      = Operation.interpret hw types ty (operation.eval hw types env) rest := by
  cases operation with
  | ret value => exact straight.elim
  | _ => rfl

theorem leads_lowerBody (run : Runs (lowerBody functions decl items) c u c') : Leads c c' :=
  (walks_lowerBody .free (fun _ _ _ _ => trivial) (fun _ => trivial) _ _ trivial run).2.1

theorem lowerBody_executes (plain : decl.signature.result.isPlain = true)
    (mirrors : Mirrors hw p env c s) (typed : c.Typed types)
    (straight : ∀ item ∈ items, item.operation.IsStraight c)
    (numeric : ∀ item ∈ items, item.operation.IsNumeric types)
    (run : Runs (lowerBody functions decl (items ++ [⟨.ret (some v), loc⟩])) c u c')
    (separate : p.Separates c'.extent) : ∃ s', Executes hw p c s c' s'
      ∧ Operation.interpret hw types decl.signature.result env
        (items.map BodyItem.operation ++ [.ret (some v)]) = some (s'.registers (.int 0)) := by
  induction items generalizing c s env with
  | nil =>
    simp only [List.nil_append, lowerBody, List.isEmpty_nil, runs_bind, runs_pure] at run
    obtain ⟨_, _, returned, _, rfl⟩ := run
    obtain ⟨s', ran, content⟩ := lowerItem_return mirrors plain returned separate
    exact ⟨s', ran, congrArg some content.symm⟩
  | cons item rest ih =>
    simp only [List.cons_append, lowerBody, runs_bind] at run
    obtain ⟨_, c1, lowered, run⟩ := run
    rw [List.forall_mem_cons] at straight numeric
    have leads : Leads c c1 := (walks_lowerItem .free (fun _ => trivial)
      (fun _ _ => trivial) _ _ trivial lowered).2.1
    have straight_rest (other : BodyItem) (member : other ∈ rest) : other.operation.IsStraight c1 :=
      (straight.2 other member).of_keeps leads.keeps
    obtain ⟨s1, ran1, mirrors1⟩ := lowerItem_mirrors mirrors typed straight.1
      (numeric.1.fits typed straight.1) lowered
      (separate.mono (leads_lowerBody run).extent)
    obtain ⟨s', ran', content⟩ := ih mirrors1 (leads.typed typed) straight_rest numeric.2 run
    refine ⟨s', ran1.trans ran', ?_⟩
    rw [List.map_cons, List.cons_append, straight.1.interpret_cons]
    exact content

theorem bindParameters_mirrors {pairs : List (ValueId × ArgumentPlace)}
    (mirrors : Mirrors hw p env c s)
    (passed : ∀ v r, (v, .register r) ∈ pairs → s.registers r = env v
      ∧ ∃ ty, c.Variable v ty ∧ ty.canonicalBits (env v) = env v)
      (run : Runs (bindParameters pairs) c u c') :
    Executes hw p c s c' s ∧ Mirrors hw p env c' s ∧ Leads c c' := by
  induction pairs generalizing c with
  | nil =>
    obtain ⟨_, rfl⟩ := runs_pure.mp run
    exact ⟨.of_code rfl, mirrors, .refl _⟩
  | cons pair rest ih =>
    obtain ⟨param, place⟩ := pair
    cases place with
    | stack offset =>
      exact ih mirrors (fun v r member => passed v r (List.mem_cons_of_mem _ member)) run
    | register r =>
      simp only [bindParameters, runs_bind] at run
      obtain ⟨_, c1, bound, _, c2, marked, run⟩ := run
      obtain ⟨content, ty, ⟨value, found, is_named, rfl⟩, canonical⟩ :=
        passed param r (List.mem_cons_self ..)
      have walked1 := walks_bindRegister (D := .homed) trivial _ _ mirrors.homed bound
      have walked2 := walks_markDirty (D := .homed) param _ _ walked1.1 marked
      have leads := walked1.2.1.trans walked2.2.1
      obtain ⟨books1, bank, _, _, empty, _, _, quiet⟩ := bindRegister_books mirrors found bound
      rw [Ty.bank_of_isPlain (mirrors.ints found)] at bank
      obtain ⟨books2, code⟩ := markDirty_put books1 is_named marked
      have unconstant : value.constant? = none := by
        cases kind : value.kind <;> simp_all [Value.constant?, Value.isNamed, Value.named?]
      have seated : Mirrors hw p (Function.update env param (env param)) c2 (s.set r (env param)) :=
        mirrors.seat found books2 walked2.1 leads (by simp [empty])
          (by simp [unconstant]) (fun _ => .inl rfl) (by simp) bank.symm canonical
      rw [Function.update_eq_self, MachineState.set_self content] at seated
      obtain ⟨ran, mirrors', leads'⟩ := ih seated (fun v q member => by
        obtain ⟨content, ty, is_variable, canonical⟩ := passed v q (List.mem_cons_of_mem _ member)
        exact ⟨content, ty, is_variable.of_keeps leads.keeps, canonical⟩) run
      exact ⟨(quiet s).trans ((Executes.of_code code).trans ran), mirrors', leads.trans leads'⟩

def Context.entered (c : Context) (frame : FrameId) (instrs : List Instr) : Context :=
  { c with currentFrame := some frame }.appended instrs

theorem Gen.runs_lowerFunction (is_frame : decl.frame = some frame)
    (is_body : decl.body = some body) (returns : endsWithReturn body = true)
    (run : Runs (lowerFunction functions decl) c range c') :
    ∃ remarks c1 c2, (∀ i ∈ remarks, i.isRemark = true)
      ∧ Runs (bindParameters (decl.params.zip decl.layout.arguments))
        (c.entered frame (.label decl.start :: remarks ++ [.stackAdjust (.enter frame)])) () c1
      ∧ Runs (lowerBody functions decl body) c1 () c2
      ∧ c'.code.toList
        = c2.code.toList ++ [Instr.label decl.epilogue, .stackAdjust (.leave frame), .ret]
      ∧ c'.frames = c2.frames := by
  simp only [lowerFunction, is_frame, is_body, runs_bind, runs_get, and_assoc, exists_and_left,
    exists_eq_left] at run
  cases occupied : c.registers.allOccupied with
  | cons pair rest =>
    simp only [occupied, runs_bind, runs_inconsistent] at run
    simp at run
  | nil =>
    simp only [occupied, instructionCount, enterFrame, lowerPrologue, lowerEpilogue, leaveFrame,
      returns, Bool.not_true, Bool.false_eq_true, ↓reduceIte, runs_bind, runs_get, runs_pure,
      runs_modify, runs_emit, runs_record, and_assoc, exists_and_left, exists_eq_left] at run
    obtain ⟨_, _, c1, ⟨_, _, c0, commented, _, bound⟩, _, c2, lowered, _, _,
      ⟨_, _, rfl⟩, _, _, _, rfl⟩ :=
      run
    obtain ⟨remarks, only, rfl⟩ := runs_comment commented
    refine ⟨remarks, c1, c2, fun i member => (only i member).remark, ?_, lowered, ?_, rfl⟩
    · convert bound using 1
      simp only [Context.entered, Context.appended, Context.pushed]
      congr 1
      exact Array.toList_inj.mp (by simp)
    · simp [Context.pushed]

theorem lowerFunction_label (is_frame : decl.frame = some frame)
    (is_body : decl.body = some (items ++ [⟨.ret (some v), loc⟩]))
    (run : Runs (lowerFunction functions decl) c range c') :
    ∃ rest, c'.code.toList = c.code.toList ++ .label decl.start :: rest := by
  have returns : endsWithReturn (items ++ [⟨.ret (some v), loc⟩]) = true := by
    simp [endsWithReturn, Operation.isReturn]
  obtain ⟨remarks, c1, c2, _, bound, lowered, written, _⟩ :=
    runs_lowerFunction is_frame is_body returns run
  have leads1 := of_walks (walks_bindParameters (fun _ => trivial)) bound
  have leads2 := leads_lowerBody lowered
  obtain ⟨code, is_code⟩ := leads1.code.trans leads2.code
  rw [written, ← is_code]
  simp [Context.entered, Context.appended]

theorem Context.separates_of_single (p : Placement) (one : c.frames.sizes.size = 1)
    (bounded : c.Bounded) (statics : c.statics.used = 0) (blobs : c.constants.blobs = #[]) :
    p.Separates c.extent := by
  have only_frame {area : Area} {i : Nat} (inside : i < c.extent area) :
      area = .frame ⟨0⟩ ∧ i < 2 ^ 64 := by
    cases area with
    | frame id =>
      cases known : c.frames.size? id with
      | none => simp [extent, known] at inside
      | some size =>
        have first : id.index < 1 := one ▸ (Array.getElem?_eq_some_iff.mp known).1
        have small := bounded known
        simp only [extent, known, Option.getD_some, maxFrameSize] at inside small
        refine ⟨?_, by omega⟩
        cases id
        simp_all
    | statics => simp [extent, statics] at inside
    | blob id => simp [extent, ConstantPool.get?, blobs] at inside
  intro a b i j hi hj same
  obtain ⟨rfl, small⟩ := only_frame hi
  obtain ⟨rfl, small'⟩ := only_frame hj
  exact ⟨rfl, Placement.offset_eq_of_address_eq small small' same⟩

theorem lowerFunction_reaches {link : Link}
    {sp : Word} (plain : decl.signature.result.isPlain = true) (is_frame : decl.frame = some frame)
    (is_body : decl.body = some (items ++ [⟨.ret (some v), loc⟩]))
    (run : Runs (lowerFunction functions decl) c range c') (typed : c.Typed types)
    (straight : ∀ item ∈ items, item.operation.IsStraight c)
    (numeric : ∀ item ∈ items, item.operation.IsNumeric types)
    (passed : ∀ v r, (v, .register r) ∈ decl.params.zip decl.layout.arguments →
      s.registers r = env v
      ∧ ∃ ty, c.Variable v ty ∧ ty.canonicalBits (env v) = env v)
    (mirrors : ∀ {p instrs}, p.frame frame = sp - 8 → Mirrors hw p env (c.entered frame instrs) s)
    (one : c.frames.sizes.size = 1) (bounded : c.Bounded) :
    ∃ s' stop, Processor.Reaches hw link c'.code.toList ⟨s, sp, c.code.size⟩ ⟨s', sp, stop⟩
      ∧ c'.code.toList[stop]? = some .ret
      ∧ Operation.interpret hw types decl.signature.result env
        (items.map BodyItem.operation ++ [.ret (some v)]) = some (s'.registers (.int 0)) := by
  have returns : endsWithReturn (items ++ [⟨.ret (some v), loc⟩]) = true := by
    simp [endsWithReturn, Operation.isReturn]
  obtain ⟨remarks, c1, c2, only, bound, lowered, written, frames⟩ :=
    runs_lowerFunction is_frame is_body returns run
  -- In the function the stack pointer is at the end of the frame.
  have frame_at : (link.placement (sp + link.amount (.enter frame))).frame frame = sp - 8 := by
    simp only [Link.placement, Link.amount]
    ring
  obtain ⟨⟨code1, written1, ran1⟩, mirrors1, leads1⟩ :=
    bindParameters_mirrors (mirrors frame_at) passed bound
  have straight1 (item : BodyItem) (member : item ∈ items) : item.operation.IsStraight c1 :=
    (straight item member).of_keeps leads1.keeps
  have leads2 := leads_lowerBody lowered
  obtain ⟨same_statics, same_blobs⟩ := leads2.areas mirrors1.lawful.isLocal
  have separate : (link.placement (sp + link.amount (.enter frame))).Separates c2.extent :=
    c2.separates_of_single _ ((leads1.trans leads2).frames.trans one)
      ((leads1.trans leads2).bounded bounded) (same_statics ▸ mirrors1.lawful.statics)
      (same_blobs ▸ mirrors1.lawful.blobs)
  obtain ⟨s', ⟨code2, written2, ran2⟩, result⟩ :=
    lowerBody_executes plain mirrors1 (leads1.typed typed)
    straight1 numeric lowered separate
  have parts : c'.code.toList = c.code.toList ++ ((.label decl.start :: remarks)
      ++ .stackAdjust (.enter frame) :: (code1 ++ (code2 ++ [.label decl.epilogue])
        ++ [.stackAdjust (.leave frame), .ret])) := by
    rw [written, written2, written1]
    simp [Context.entered, Context.appended]
  have before : Instr.executeAll hw (link.placement sp) (.label decl.start :: remarks) s = some s :=
    Executes.executeAll_remarks only s
  have inside : Instr.executeAll hw (link.placement (sp + link.amount (.enter frame)))
      (code1 ++ (code2 ++ [.label decl.epilogue])) s = some s' := by
    simp [Instr.executeAll_append, ran1, ran2, Instr.execute]
  obtain ⟨stop, reached, returned⟩ := Processor.reaches_ret parts before inside
  rw [Array.length_toList] at reached
  exact ⟨s', stop, reached, returned, result⟩

end RegisterBackend
