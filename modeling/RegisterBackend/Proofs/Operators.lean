import RegisterBackend.Proofs.Movement

/-!
What operators and assignments mean, and that the code written for them computes it, however full
the registers are.
-/
namespace RegisterBackend

open Discipline Context Ty MachineState RegisterFile Value Word

variable {b : Books} {i reg : Register → Instr} {imm : Word → Instr} {inPlace signed : Bool}
  {left old : Value} {lhs operand rhs target value : ValueId} {op : BinaryOp} {s' : MachineState}
  {st : Standing} {w : Word}

def UnaryOp.eval (op : UnaryOp) (ty : Ty) (w : Word) : Word :=
  match op with
  | .neg => ty.canonicalBits (-w)
  | .bitNot => ty.canonicalBits (~~~w)
  | .logicalNot => ofBool (w == 0)

/-- The words of all values after an operation. Operands are whole words; the type of the
result says which flavour of an operator is meant and what of the outcome counts. -/
def Operation.eval (hw : Hardware) (types : ValueId → Ty) (env : ValueId → Word) :
    Operation → ValueId → Word
  | .binary op lhs rhs result _ => Function.update env result ((types result).canonicalBits
      ((op.aluOp (types result).isSigned).eval hw (env lhs) (env rhs)))
  | .compare op lhs rhs result => Function.update env result
      (ofBool ((op.cond (types lhs).isSigned).holds (env lhs) (env rhs)))
  | .unary op operand result => Function.update env result (op.eval (types result) (env operand))
  | .convert value result => Function.update env result ((types result).canonicalBits (env value))
  | .assign target value => Function.update env target ((types target).canonicalBits (env value))
  | _ => env

open Gen

variable {hw : Hardware} {p : Placement} {R : Realm} {env : ValueId → Word} {c c1 c' : Context}
  {s s1 : MachineState} {v result : ValueId} {r : Register} {u : Unit} {ty lhsTy rhsTy source : Ty}
  {x y : Word} {cond : Cond} {scaled : Bool} {right : Value}

def Context.Temporary (c : Context) (v : ValueId) (ty : Ty) : Prop :=
  ∃ value, c.values.get? v = some value ∧ value.kind = .temporary ∧ value.ty = ty

/-- Values keep their types and natures; others may come. -/
def ValueStore.Keeps (s s' : ValueStore) : Prop :=
  ∀ {v value}, s.get? v = some value →
    ∃ value', s'.get? v = some value' ∧ value'.ty = value.ty
      ∧ value'.kind.nature = value.kind.nature

theorem Leads.keeps (leads : Leads c c') : c.values.Keeps c'.values := by
  intro v value found
  obtain ⟨value', found', ages⟩ := leads.values found
  exact ⟨value', found', ages.ty, ages.nature⟩

theorem Context.Temporary.of_keeps (temporary : c.Temporary v ty)
    (keeps : c.values.Keeps c'.values) : c'.Temporary v ty := by
  obtain ⟨value, found, kind, rfl⟩ := temporary
  obtain ⟨value', found', same_ty, nature⟩ := keeps found
  refine ⟨value', found', ?_, same_ty⟩
  cases kind' : value'.kind <;> simp_all [ValueKind.nature]

theorem Leads.temporary (leads : Leads c c') (temporary : c.Temporary v ty) : c'.Temporary v ty :=
  temporary.of_keeps leads.keeps

theorem Reflects.pushed (reflects : Reflects hw p R c s) (i : Instr) :
    Reflects hw p R (c.pushed i) s :=
  reflects.after reflects.homed (.pushed c i) reflects.tracks

theorem Reflects.appended (reflects : Reflects hw p R c s) (instrs : List Instr) :
    Reflects hw p R (c.appended instrs) s :=
  reflects.after reflects.homed (.appended c instrs) reflects.tracks

theorem canonicalize_mirrors (mirrors : Mirrors hw p env c s) (bank : r.bank = .int)
    (sized : ty.RegisterSized) (run : Runs (canonicalize r ty) c u c') : Mirrors hw p env c' s := by
  obtain ⟨instrs, rfl, _⟩ := runs_canonicalize bank sized run
  exact mirrors.appended instrs

theorem bindRegister_result (mirrors : Mirrors hw p env c s) (temporary : c.Temporary result ty)
    (canonical : ty.canonicalBits w = w) (run : Runs (bindRegister r result) c u c') :
    Executes hw p c (s.set r w) c' (s.set r w)
      ∧ Mirrors hw p (Function.update env result w) c' (s.set r w) := by
  obtain ⟨value, found, kind, rfl⟩ := temporary
  have walked := walks_bindRegister (D := .homed) trivial _ _ mirrors.homed run
  obtain ⟨books, bank, _, _, empty, _, _, quiet⟩ := bindRegister_books mirrors found run
  rw [bank_of_isPlain (mirrors.ints found)] at bank
  have unnamed : value.named? = none := by simp [named?, kind]
  refine ⟨quiet _, mirrors.seat found books walked.1 walked.2.1 (by simp [empty]) ?_ ?_ ?_
    bank.symm canonical⟩
  · simp [Value.constant?, kind]
  · simp [isNamed, unnamed]
  · simp [Value.home?, unnamed]

/-- The code written from `c` to `c'` runs, and afterwards the value is the word. -/
abbrev Sets (hw : Hardware) (p : Placement) (env : ValueId → Word) (c : Context) (s : MachineState)
    (c' : Context) (v : ValueId) (w : Word) : Prop :=
  ∃ s', Executes hw p c s c' s' ∧ Mirrors hw p (Function.update env v w) c' s'

theorem Copies.bind {c2 : Context} (copies : Copies hw p (.plain env) v x c s r c1 s')
    (ran : Executes hw p c1 s' c2 (s'.set r w)) (mirrors : Mirrors hw p env c2 s')
    (temporary : c2.Temporary result ty) (canonical : ty.canonicalBits w = w)
    (run : Runs (bindRegister r result) c2 u c') : Sets hw p env c s c' result w := by
  obtain ⟨quiet, mirrors'⟩ := bindRegister_result mirrors temporary canonical run
  exact ⟨_, copies.executes.trans (ran.trans quiet), mirrors'⟩

theorem Copies.set_content (copies : Copies hw p R v w c s r c1 s') :
    s'.set r w = s' := set_self copies.content

theorem Copies.cmpImm (copies : Copies hw p R v w c s r c1 s') (imm : Word) (cond : Cond) :
    Executes hw p c1 s' (c1.pushed (.cmpImm r imm cond))
      (s'.set r (ofBool (cond.holds w imm))) := by
  have ran : Executes hw p c1 (s'.set r w) (c1.pushed (.cmpImm r imm cond)) _ :=
    cmpImm_executes
  rwa [copies.set_content] at ran

theorem Ty.canonicalBits_ofBool (truth : ty.isBool = true) (b : Bool) :
    ty.canonicalBits (Word.ofBool b) = Word.ofBool b := by
  rw [canonicalBits_of_isBool truth]
  cases b <;> rfl

theorem leads_bindRegister (run : Runs (bindRegister r v) c u c') : Leads c c' :=
  .of_walks (walks_bindRegister trivial) run

theorem leads_takeRegister (run : Runs (takeRegister v) c r c') : Leads c c' :=
  .of_walks (walks_takeRegister v) run

theorem leads_canonicalize (run : Runs (canonicalize r ty) c u c') : Leads c c' :=
  .of_walks (walks_canonicalize r ty) run

theorem computeFitted_mirrors {f : Word → Word}
    (effect : ∀ dst s, (i dst).execute hw p s = some (s.set dst (f (s.registers dst))))
    (mirrors : Mirrors hw p env c s) (temporary : c.Temporary result ty) (plain : ty.isPlain = true)
    (integer : ty.isBool = false) (run : Runs (do
      let dst ← takeRegister operand
      emit (i dst)
      canonicalize dst ty
      bindRegister dst result) c u c') (separate : p.Separates c'.extent) :
    Sets hw p env c s c' result (ty.canonicalBits (f (env operand))) := by
  simp only [runs_bind, runs_emit] at run
  obtain ⟨dst, c1, taken, _, _, rfl, _, c2, fitted, bound⟩ := run
  have sized := registerSized_of_isPlain plain
  have leads1 := leads_takeRegister taken
  have leads2 := (Leads.pushed c1 (i dst)).trans (leads_canonicalize fitted)
  obtain ⟨s1, copies⟩ := takeRegister_copies mirrors (mirrors.words _) taken
    (separate.mono (leads2.trans (leads_bindRegister bound)).extent)
  have computed : Executes hw p c1 s1 (c1.pushed (i dst)) (s1.set dst (f (env operand))) := by
    refine .pushed ?_
    rw [effect, copies.content]
  refine copies.bind (computed.trans ?_)
    (canonicalize_mirrors (copies.reflects.pushed _) copies.bank
    sized fitted) ((leads1.trans leads2).temporary temporary) (canonicalBits_idem _ _) bound
  rw [canonicalBits_eq_narrow sized integer]
  exact canonicalize_executes copies.bank sized fitted s1 _

theorem computeTruth_mirrors {imm : Word}
    (mirrors : Mirrors hw p env c s) (temporary : c.Temporary result ty) (truth : ty.isBool = true)
    (run : Runs (do
      let dst ← takeRegister operand
      emit (.cmpImm dst imm cond)
      bindRegister dst result) c u c') (separate : p.Separates c'.extent) :
    Sets hw p env c s c' result (ofBool (cond.holds (env operand) imm)) := by
  simp only [runs_bind, runs_emit] at run
  obtain ⟨dst, c1, taken, _, _, rfl, bound⟩ := run
  have leads1 := leads_takeRegister taken
  have leads2 := Leads.pushed c1 (.cmpImm dst imm cond)
  obtain ⟨s1, copies⟩ := takeRegister_copies mirrors (mirrors.words _) taken
    (separate.mono (leads2.trans (leads_bindRegister bound)).extent)
  exact copies.bind (copies.cmpImm imm cond) (copies.reflects.pushed _)
    ((leads1.trans leads2).temporary temporary) (canonicalBits_ofBool truth _) bound

theorem lowerUnary_mirrors {op : UnaryOp} (mirrors : Mirrors hw p env c s)
    (temporary : c.Temporary result ty) (truth : ty.isBool = decide (op = .logicalNot))
    (run : Runs (lowerUnary op operand result) c u c') (separate : p.Separates c'.extent) :
    Sets hw p env c s c' result (op.eval ty (env operand)) := by
  simp only [lowerUnary, runs_valueOf_bind] at run
  obtain ⟨value, found, target, found_target, run⟩ := run
  obtain ⟨_, found', _, rfl⟩ := id temporary
  obtain rfl := Option.mem_unique found_target found'
  have plain := mirrors.ints found_target
  rw [isFloat_of_isPlain (mirrors.ints found)] at run
  cases op with
  | neg | bitNot =>
    exact computeFitted_mirrors (fun _ _ => rfl) mirrors temporary plain truth run separate
  | logicalNot => exact computeTruth_mirrors mirrors temporary truth run separate

theorem lowerConvert_mirrors (mirrors : Mirrors hw p env c s) (temporary : c.Temporary result ty)
    (run : Runs (lowerConvert value result) c u c') (separate : p.Separates c'.extent) :
    Sets hw p env c s c' result (ty.canonicalBits (env value)) := by
  simp only [lowerConvert, runs_valueOf_bind] at run
  obtain ⟨source, found, target, found_target, run⟩ := run
  obtain ⟨_, found', _, rfl⟩ := id temporary
  obtain rfl := Option.mem_unique found_target found'
  have plain := mirrors.ints found_target
  have plain_source := mirrors.ints found
  have sized := registerSized_of_isPlain plain
  simp only [isFloat_of_isPlain plain, isFloat_of_isPlain plain_source,
    isScalar_of_isPlain plain, isScalar_of_isPlain plain_source, Bool.false_and, Bool.and_false,
    Bool.not_true, Bool.or_self, Bool.false_eq_true, ↓reduceIte, convertInt, runs_bind] at run
  obtain ⟨dst, c1, taken, run⟩ := run
  obtain ⟨to_bool, run⟩ | ⟨not_to_bool, run⟩ := runs_ite.mp run
  · simp only [Bool.and_eq_true] at to_bool
    rw [canonicalBits_of_isBool to_bool.1]
    exact computeTruth_mirrors mirrors temporary to_bool.1 (runs_bind.mpr ⟨dst, c1, taken, run⟩)
      separate
  have same_truth : target.ty.isBool = true → source.ty.isBool = true := by
    intro is_bool
    by_contra integer
    simp [is_bool, integer] at not_to_bool
  have leads1 := leads_takeRegister taken
  obtain ⟨refit, run⟩ | ⟨fits, bound⟩ := runs_ite.mp run
  · -- A truth value is made of a truth value without any code.
    have integer : target.ty.isBool = false := by
      by_contra is_bool
      rw [Bool.not_eq_false] at is_bool
      have same := (eq_bool_of_isBool plain is_bool).trans
        (eq_bool_of_isBool plain_source (same_truth is_bool)).symm
      simp [same] at refit
    simp only [runs_bind] at run
    obtain ⟨_, c2, fitted, bound⟩ := run
    have leads2 := leads_canonicalize fitted
    obtain ⟨s1, copies⟩ := takeRegister_copies mirrors (mirrors.words _) taken
      (separate.mono (leads2.trans (leads_bindRegister bound)).extent)
    refine copies.bind ?_ (canonicalize_mirrors copies.reflects copies.bank sized fitted)
      ((leads1.trans leads2).temporary temporary) (canonicalBits_idem _ _) bound
    rw [canonicalBits_eq_narrow sized integer]
    have ran : Executes hw p c1 (s1.set dst (env value)) c2 _ :=
      canonicalize_executes copies.bank sized fitted s1 (env value)
    rwa [copies.set_content] at ran
  · obtain ⟨s1, copies⟩ := takeRegister_copies mirrors (mirrors.words _) taken
      (separate.mono (leads_bindRegister bound).extent)
    obtain ⟨_, found'', canonical⟩ := copies.canonical (mirrors.settles _)
    obtain rfl := Option.mem_unique found found''
    rw [Hardware.Canonical, bank_of_isPlain plain_source] at canonical
    simp only [Bool.or_eq_true, decide_eq_true_eq, not_or, not_lt, bne_iff_ne, ne_eq,
      Decidable.not_not] at fits
    rw [canonicalBits_of_wider plain_source plain same_truth fits.1 fits.2 canonical]
    refine copies.bind ?_ copies.reflects (leads1.temporary temporary)
      (canonicalBits_of_wider plain_source plain same_truth fits.1 fits.2 canonical) bound
    rw [copies.set_content]
    exact .of_code rfl

/-- The right operand is taken as an immediate or from a register. If it has to be `scaled` it is
multiplied first, in a register of its own. -/
def Gen.TakesRight (imm : Word → Instr) (reg : Register → Instr) (factor : Word) (scaled : Bool)
    (rhs : ValueId) (c c' : Context) : Prop :=
  ∃ value, c.values.get? rhs = some value ∧
    ((∃ bits left c1, value.constant? = some bits ∧ Runs (consume rhs) c left c1
      ∧ c' = c1.pushed (imm (bits * factor)))
    ∨ (∃ src c1, value.constant? = none ∧ factor = 1 ∧ Runs (useInRegister rhs) c src c1
      ∧ c' = c1.pushed (reg src))
    ∨ ∃ src c1, scaled = true ∧ Runs (takeRegister rhs) c src c1
      ∧ c' = (c1.pushed (.aluImm .mul src (.value factor))).pushed (reg src))

theorem Gen.TakesRight.executes {f : Word → Word → Word} {factor : Word}
    (takes : TakesRight imm reg factor scaled rhs c c')
    (reflects : Reflects hw p R c s) (words : R.Words c rhs y)
    (is_locked : c.registers.isLocked r = true) (elsewhere : scaled = true →
      c.registers.occupant? r ≠ some rhs) (separate : p.Separates c'.extent)
    (immediate : ∀ bits s, (imm bits).execute hw p s = some (s.set r (f (s.registers r) bits)))
    (register : ∀ src s, (reg src).execute hw p s
      = some (s.set r (f (s.registers r) (s.registers src)))) :
    ∃ s', Executes hw p c s c' (s'.set r (f (s.registers r) (y * factor)))
      ∧ Reflects hw p R c' s' ∧ c'.registers.occupant? r = c.registers.occupant? r := by
  obtain ⟨value, found, ⟨bits, left, c1, is_bits, consumed, rfl⟩ | ⟨src, c1, varies, rfl, used, rfl⟩
    | ⟨src, c1, is_scaled, taken, rfl⟩⟩ := takes
  · have first := consume_simulates reflects consumed
    refine ⟨s, first.executes.trans (.pushed ?_), first.reflects.pushed _, (first.kept is_locked).2⟩
    rw [immediate, Content.word.inj (words.word.symm.trans (reflects.constant found is_bits))]
  · have settles : c.Settles hw rhs := by
      intro value' bits found' is_bits
      obtain rfl := Option.mem_unique found found'
      cases varies.symm.trans is_bits
    obtain ⟨s1, first, occupied⟩ := useInRegister_simulates reflects words settles used separate
    obtain ⟨content, occupant⟩ := first.kept is_locked
    refine ⟨s1, first.executes.trans (.pushed ?_), first.reflects.pushed _, occupant⟩
    rw [register, content, first.reflects.register occupied words.word, mul_one]
  · obtain ⟨s1, copies⟩ := takeRegister_copies reflects words taken separate
    obtain ⟨other, content, occupant⟩ := copies.kept is_locked (elsewhere is_scaled)
    have scaled : Reflects hw p R c1 (s1.set src (y * factor)) :=
      { copies.reflects with tracks := copies.reflects.tracks.set copies.empty _ }
    have multiplied : (Instr.aluImm .mul src (.value factor)).execute hw p s1
        = some (s1.set src (y * factor)) := by
      rw [Instr.execute]
      simp [copies.content, AluOp.eval, Placement.imm]
    refine ⟨_, copies.executes.trans ((Executes.pushed multiplied).trans (.pushed ?_)),
      (scaled.pushed _).pushed _, occupant⟩
    rw [register]
    simp [other, content]

theorem Gen.TakesRight.leads {factor : Word} (takes : TakesRight imm reg factor scaled rhs c c') :
    Leads c c' := by
  obtain ⟨_, _,
    ⟨_, _, c1, _, consumed, rfl⟩ | ⟨src, c1, _, _, used, rfl⟩ | ⟨src, c1, _, taken, rfl⟩⟩ := takes
  · exact (Leads.of_walks (walks_consume rhs) consumed).trans (.pushed _ _)
  · exact (Leads.of_walks (walks_useInRegister rhs) used).trans (.pushed _ _)
  · exact (leads_takeRegister taken).trans ((Leads.pushed _ _).trans (.pushed _ _))

theorem Gen.runs_compared {a b : ValueId} (run : Runs (do
      let dst ← takeRegister a
      holding dst do
        match (← valueOf b).constant? with
        | some bits =>
          discard (consume b)
          emit (.cmpImm dst bits cond)
        | none =>
          let src ← useInRegister b
          emit (.cmp dst src cond)
        bindRegister dst result) c u c') :
    ∃ dst c1 c2 c3, Runs (takeRegister a) c dst c1
      ∧ TakesRight (.cmpImm dst · cond) (.cmp dst · cond) 1 false b (c1.withLock dst true) c2
      ∧ Runs (bindRegister dst result) c2 u c3 ∧ c' = c3.withLock dst
      (c1.registers.isLocked dst) := by
  simp only [runs_bind, runs_holding] at run
  obtain ⟨dst, c1, taken, c3, ⟨value, c2, looked, inner⟩, rfl⟩ := run
  obtain ⟨found, rfl⟩ := runs_valueOf.mp looked
  cases is_constant : value.constant? with
  | some bits =>
    simp only [is_constant, runs_bind, runs_discard, runs_emit] at inner
    obtain ⟨_, c2, ⟨left, consumed⟩, _, _, rfl, bound⟩ := inner
    exact ⟨dst, c1, _, c3, taken, ⟨value, found, .inl ⟨bits, left, c2, is_constant, consumed,
      by rw [mul_one]⟩⟩, bound, rfl⟩
  | none =>
    simp only [is_constant, runs_bind, runs_emit] at inner
    obtain ⟨src, c2, used, _, _, rfl, bound⟩ := inner
    exact ⟨dst, c1, _, c3, taken,
      ⟨value, found, .inr (.inl ⟨src, c2, is_constant, rfl, used, rfl⟩)⟩, bound, rfl⟩

theorem Gen.runs_lowerIntCompare {op : CompareOp}
    (run : Runs (lowerIntCompare op lhs rhs result signed) c u c') : ∃ a b cond, (a = lhs ∧ b = rhs
      ∧ cond = op.cond signed ∨ a = rhs ∧ b = lhs ∧ cond = (op.cond signed).swapped)
      ∧ ∃ dst c1 c2 c3, Runs (takeRegister a) c dst c1
        ∧ TakesRight (.cmpImm dst · cond) (.cmp dst · cond) 1 false b (c1.withLock dst true) c2
        ∧ Runs (bindRegister dst result) c2 u c3 ∧ c' = c3.withLock dst
        (c1.registers.isLocked dst) := by
  obtain ⟨left, found, run⟩ := runs_valueOf_bind.mp run
  obtain ⟨_, run⟩ | ⟨_, run⟩ := runs_ite.mp run
  · obtain ⟨right, found_right, run⟩ := runs_valueOf_bind.mp run
    cases swapped : !right.isConstant with
    | true =>
      simp only [swapped, pure_bind, ↓reduceIte] at run
      exact ⟨rhs, lhs, _, .inr ⟨rfl, rfl, rfl⟩, runs_compared run⟩
    | false =>
      simp only [swapped, pure_bind, Bool.false_eq_true, ↓reduceIte] at run
      exact ⟨lhs, rhs, _, .inl ⟨rfl, rfl, rfl⟩, runs_compared run⟩
  · simp only [pure_bind, Bool.false_eq_true, ↓reduceIte] at run
    exact ⟨lhs, rhs, _, .inl ⟨rfl, rfl, rfl⟩, runs_compared run⟩

theorem lowerIntCompare_computes {op : CompareOp} (reflects : Reflects hw p R c s)
    (left : R.Words c lhs x) (right : R.Words c rhs y)
    (run : Runs (lowerIntCompare op lhs rhs result signed) c u c')
    (separate : p.Separates c'.extent) :
    ∃ (dst : Register) (c1 c2 c3 : Context) (s2 : MachineState), Leads c c2 ∧ Executes hw p c s c2
    (s2.set dst (ofBool ((op.cond signed).holds x y)))
      ∧ Reflects hw p R c2 s2 ∧ Runs (bindRegister dst result) c2 u c3
      ∧ c' = c3.withLock dst (c1.registers.isLocked dst) := by
  obtain ⟨a, b, cond, sides, dst, c1, c2, c3, taken, takes, bound, rfl⟩ := runs_lowerIntCompare run
  obtain ⟨x', y', first, second, outcome⟩ : ∃ x' y', R.Words c a x' ∧ R.Words c b y'
      ∧ (op.cond signed).holds x y = cond.holds x' y' := by
    obtain ⟨rfl, rfl, rfl⟩ | ⟨rfl, rfl, rfl⟩ := sides
    · exact ⟨x, y, left, right, rfl⟩
    · exact ⟨y, x, right, left, (Cond.holds_swapped _ _ _).symm⟩
  rw [outcome]
  have leads1 := leads_takeRegister taken
  have leads2 := (Leads.withLock c1 dst true).trans takes.leads
  have leads3 := leads_bindRegister bound
  obtain ⟨s1, copies⟩ := takeRegister_copies reflects first taken
    (separate.mono (leads2.trans leads3).extent)
  obtain ⟨s2, ran, reflects2, _⟩ := takes.executes (copies.reflects.withLock dst true)
    (second.after (leads1.trans (.withLock _ _ _))) (isLocked_lock_self _ copies.range)
    (fun scaled => by cases scaled) (separate.mono leads3.extent)
    (f := fun x y => ofBool (cond.holds x y)) (fun _ _ => rfl) (fun _ _ => rfl)
  rw [copies.content, mul_one] at ran
  exact ⟨dst, c1, c2, c3, s2, leads1.trans leads2,
    copies.executes.trans ((Executes.of_code rfl).trans ran), reflects2, bound, rfl⟩

theorem lowerCompare_mirrors {op : CompareOp} (mirrors : Mirrors hw p env c s)
    (temporary : c.Temporary result ty) (truth : ty.isBool = true)
    (found : c.values.get? lhs = some left) (run : Runs (lowerCompare op lhs rhs result) c u c')
    (separate : p.Separates c'.extent) : Sets hw p env c s c' result
    (ofBool ((op.cond left.ty.isSigned).holds (env lhs) (env rhs))) := by
  rw [lowerCompare, runs_found found] at run
  simp only [isFloat_of_isPlain (mirrors.ints found), Bool.false_eq_true, ↓reduceIte] at run
  obtain ⟨dst, c1, c2, c3, s2, leads, ran, mirrors2, bound, rfl⟩ :=
    lowerIntCompare_computes mirrors (mirrors.words lhs) (mirrors.words rhs) run separate
  obtain ⟨quiet, mirrors3⟩ := bindRegister_result mirrors2 (leads.temporary temporary)
    (canonicalBits_ofBool truth _) bound
  exact ⟨_, ran.trans (quiet.trans (.of_code rfl)), mirrors3.withLock _ _⟩

theorem markDirty_books {value : Value} (found : c.values.get? v = some value)
    (is_named : value.isNamed = true) (run : Runs (markDirty v) c u c') :
    c'.books = c.books.put v { value.standing with dirty := true } ∧ c'.code = c.code := by
  simp only [markDirty, runs_bind, runs_updateValue, runs_touch] at run
  obtain ⟨_, c1, ⟨_, rfl⟩, _, rfl⟩ := run
  refine ⟨?_, rfl⟩
  have touched := books_touch { c with values := c.values.modify v (·.setDirty true) } v
  rw [touched, books_modify found, Value.standing_setDirty, is_named, Bool.true_and]

theorem markDirty_mirrors {value : Value} (mirrors : Mirrors hw p env c s)
    (found : c.values.get? v = some value) (is_named : value.isNamed = true)
    (occupied : c.registers.occupant? r = some v) (bank : r.bank = .int)
    (canonical : value.ty.canonicalBits w = w) (run : Runs (markDirty v) c u c') :
    Mirrors hw p (Function.update env v w) c' (s.set r w) := by
  have walked := walks_markDirty (D := .homed) v _ _ mirrors.homed run
  have standing := standing_books found
  have pos : value.standing.position = some (.register r) :=
    (mirrors.tracks.occupant_iff standing).mp occupied
  have unconstant : value.constant? = none := by
    cases kind : value.kind <;> simp_all [Value.constant?, isNamed, named?]
  have books : c'.books = ((c.books.without v).occupy r (some v)).put v
      { value.standing with position := some (.register r), dirty := true } := by
    rw [(markDirty_books found is_named run).1, mirrors.tracks.without_of_seated standing pos,
      ← pos]
    refine Books.ext rfl ?_ rfl
    simp only [Books.put, Books.occupy, Function.update_idem]
    exact (Function.update_eq_self_iff.mpr occupied.symm).symm
  refine mirrors.seat found books walked.1 walked.2.1 (fun other taken => ?_)
    (by simp [unconstant]) (fun _ => .inl rfl) (by simp) bank canonical
  exact Option.mem_unique taken occupied

theorem resultRegister_simulates (reflects : Reflects hw p R c s) (words : R.Words c lhs x)
    (settles : inPlace = true → c.Settles hw lhs)
    (run : Runs (resultRegister lhs inPlace) c r c') (separate : p.Separates c'.extent) :
    ∃ s', Executes hw p c s c' s' ∧ Reflects hw p R c' s' ∧ r.bank = .int ∧ r.inRange = true
      ∧ s'.registers r = x ∧ c'.registers.occupant? r = if inPlace then some lhs else none := by
  cases inPlace with
  | true =>
    obtain ⟨s', simulates, occupied⟩ :=
      variableRegister_simulates reflects words (settles rfl) run separate
    obtain ⟨st, standing, pos, bank, _⟩ := simulates.reflects.tracks.held occupied
    refine ⟨s', simulates.executes, simulates.reflects, ?_, inRange_of_occupant? occupied,
      simulates.reflects.register occupied words.word, occupied⟩
    simp only [Context.books, Option.map_eq_some_iff] at standing
    obtain ⟨value, found, rfl⟩ := standing
    exact bank.symm.trans ((words.after simulates.leads).bank found)
  | false =>
    obtain ⟨s', copies⟩ := takeRegister_copies reflects words run separate
    exact ⟨s', copies.executes, copies.reflects, copies.bank, copies.range, copies.content,
      copies.empty⟩

theorem Gen.runs_applyRight {op : AluOp} {dst : Register} {scale : Nat}
    {difference : Bool} (pos : 0 < scale)
    (run : Runs (applyRight op dst rhs scale difference) c u c') :
    TakesRight (fun bits => .aluImm op dst (.value bits)) (.alu op dst)
      (if difference then 1 else BitVec.ofNat 64 scale)
      (decide (1 < scale) && !difference) rhs c c' := by
  obtain ⟨value, found, run⟩ := runs_valueOf_bind.mp run
  refine ⟨value, found, ?_⟩
  cases is_constant : value.constant? with
  | some bits =>
    simp only [is_constant, runs_bind, runs_discard, runs_emit] at run
    obtain ⟨_, c1, ⟨left, consumed⟩, rfl⟩ := run
    exact .inl ⟨bits, left, c1, rfl, consumed, by cases difference <;> simp⟩
  | none =>
    simp only [is_constant] at run
    obtain ⟨scaled, run⟩ | ⟨whole, run⟩ := runs_ite.mp run
    · simp only [runs_bind, runs_emit] at run
      obtain ⟨src, c1, taken, _, _, rfl, rfl⟩ := run
      have whole : difference = false := by simpa using scaled.2
      exact .inr (.inr ⟨src, c1, by simpa using scaled, taken, by simp [whole]⟩)
    · simp only [runs_bind, runs_emit] at run
      obtain ⟨src, c1, used, rfl⟩ := run
      refine .inr (.inl ⟨src, c1, rfl, ?_, used, rfl⟩)
      cases difference with
      | true => rfl
      | false =>
        obtain rfl : scale = 1 := by simp only [Bool.not_false, and_true] at whole; omega
        rfl

theorem Gen.runs_measureStep {n : Nat} (run : Runs (measureStep ty) c n c') :
    n = stepSize ty ∧ c' = c := by
  obtain ⟨_, run⟩ | ⟨_, run⟩ := runs_ite.mp run
  · exact runs_pure.mp run
  · exact (runs_throw.mp run).elim

theorem Gen.runs_lowerIntBinary {value : Value} (found : c.values.get? result = some value)
    (found_left : c.values.get? lhs = some left) (found_right : c.values.get? rhs = some right)
    (run : Runs (lowerIntBinary op lhs rhs result inPlace) c u c') :
    if !inPlace && right.ty.isPointer && !left.ty.isPointer then
      Runs (lowerOrdered op rhs lhs result right.ty left.ty value.ty inPlace) c u c'
    else Runs (lowerOrdered op lhs rhs result left.ty right.ty value.ty inPlace) c u c' := by
  rw [lowerIntBinary, runs_found found, runs_found found_left, runs_found found_right] at run
  split
  · next turned => rwa [if_pos turned] at run
  · next ordered => rwa [if_neg ordered] at run

def Gen.division (dst : Register) (lhsTy rhsTy : Ty) : List Instr :=
  if lhsTy.isPointer && rhsTy.isPointer && 1 < stepSize lhsTy then
    [.aluImm .divS dst (.value (BitVec.ofNat 64 (stepSize lhsTy)))]
  else []

theorem Gen.runs_lowerOrdered {resultTy : Ty}
    (found_left : c.values.get? lhs = some left) (found_right : c.values.get? rhs = some right)
    (run : Runs (lowerOrdered op lhs rhs result lhsTy rhsTy resultTy inPlace) c u c') :
    ∃ a b, (a = lhs ∧ b = rhs
        ∨ a = rhs ∧ b = lhs ∧ inPlace = false ∧ stepSize lhsTy = 1 ∧ op.isCommutative = true)
      ∧ ∃ dst c1 c2 c3, Runs (resultRegister a inPlace) c dst c1
        ∧ Runs (applyRight (op.aluOp resultTy.isSigned) dst b (stepSize lhsTy)
          (lhsTy.isPointer && rhsTy.isPointer)) (c1.withLock dst true) () c2
        ∧ Runs (canonicalize dst resultTy) (c2.appended (division dst lhsTy rhsTy)) () c3
        ∧ Runs (finishResult dst a result inPlace)
        (c3.withLock dst (c1.registers.isLocked dst)) u c' := by
  have finished {a b : ValueId} (run : Runs (do
      let dst ← resultRegister a inPlace
      holding dst do
        applyRight (op.aluOp resultTy.isSigned) dst b (stepSize lhsTy)
          (lhsTy.isPointer && rhsTy.isPointer)
        if lhsTy.isPointer && rhsTy.isPointer && 1 < stepSize lhsTy then
          emit (.aluImm .divS dst (.value (BitVec.ofNat 64 (stepSize lhsTy))))
        canonicalize dst resultTy
      finishResult dst a result inPlace) c u c') :
        ∃ dst c1 c2 c3, Runs (resultRegister a inPlace) c dst c1
        ∧ Runs (applyRight (op.aluOp resultTy.isSigned) dst b (stepSize lhsTy)
          (lhsTy.isPointer && rhsTy.isPointer)) (c1.withLock dst true) () c2
        ∧ Runs (canonicalize dst resultTy) (c2.appended (division dst lhsTy rhsTy)) () c3
        ∧ Runs (finishResult dst a result inPlace)
          (c3.withLock dst (c1.registers.isLocked dst)) u c' := by
    simp only [runs_bind, runs_holding, runs_ite_then] at run
    obtain ⟨dst, c1, located, _, _,
      ⟨c4, ⟨_, c2, applied, _, c3, divided, fitted⟩, rfl⟩, finished⟩ := run
    refine ⟨dst, c1, c2, c4, located, applied, ?_, finished⟩
    obtain rfl : c3 = c2.appended (division dst lhsTy rhsTy) := by
      unfold division
      obtain ⟨steps, divided⟩ | ⟨whole, divided⟩ := runs_ite.mp divided
      · rw [if_pos steps, runs_emit.mp divided]
        simp [Context.pushed, Context.appended]
      · rw [if_neg whole, (runs_pure.mp divided).2]
        simp [Context.appended]
    exact fitted
  obtain ⟨_, _, measured, rest⟩ := runs_bind.mp run
  obtain ⟨rfl, rfl⟩ := runs_measureStep measured
  rw [runs_found found_left, runs_found found_right] at rest
  cases swap :
    !inPlace && stepSize lhsTy == 1 && op.isCommutative && left.isConstant && !right.isConstant with
  | true =>
    simp only [swap, ↓reduceIte] at rest
    simp only [Bool.and_eq_true, Bool.not_eq_true', beq_iff_eq] at swap
    exact ⟨rhs, lhs, .inr ⟨rfl, rfl, swap.1.1.1.1, swap.1.1.1.2, swap.1.1.2⟩, finished rest⟩
  | false =>
    simp only [swap, Bool.false_eq_true, ↓reduceIte] at rest
    exact ⟨lhs, rhs, .inl ⟨rfl, rfl⟩, finished rest⟩

theorem BinaryOp.isCommutative_aluOp (comm : op.isCommutative = true) (signed : Bool) :
    (op.aluOp signed).isCommutative = true := by
  cases op <;> cases signed <;> simp_all [aluOp, isCommutative, AluOp.isCommutative]

theorem Ty.narrow_eq_canonicalBits (sized : ty.RegisterSized) (fits : ty.isBool = true →
      ty.canonicalBits w = w) : narrow w ty.size ty.isSigned = ty.canonicalBits w := by
  cases truth : ty.isBool with
  | true => rw [fits truth, Hardware.narrow_of_canonical sized (fits truth)]
  | false => rw [canonicalBits_eq_narrow sized truth]

theorem stepSize_pos (ty : Ty) : 0 < stepSize ty := by
  unfold stepSize
  split <;> omega

/-- The bytes that one means in an integer next to an operand of the first type. -/
def Ty.factor (lhsTy rhsTy : Ty) : Word :=
  if lhsTy.isPointer && rhsTy.isPointer then 1 else BitVec.ofNat 64 (stepSize lhsTy)

def Ty.inSteps (hw : Hardware) (lhsTy rhsTy : Ty) (w : Word) : Word :=
  if lhsTy.isPointer && rhsTy.isPointer && 1 < stepSize lhsTy then
    AluOp.divS.eval hw w (BitVec.ofNat 64 (stepSize lhsTy))
  else w

theorem executeAll_division (lhsTy rhsTy : Ty) (s : MachineState) (w : Word) :
    Instr.executeAll hw p (division r lhsTy rhsTy)
    (s.set r w) = some (s.set r (lhsTy.inSteps hw rhsTy w)) := by
  unfold division inSteps
  split
  · simp [Instr.execute, Placement.imm]
  · rfl

/-- The word that an operator gives for operands of the types, a pointer before an integer. -/
def BinaryOp.ordered (op : BinaryOp) (hw : Hardware) (lhsTy rhsTy ty : Ty) (x y : Word) : Word :=
  ty.fitted (lhsTy.inSteps hw rhsTy ((op.aluOp ty.isSigned).eval hw x (y * lhsTy.factor rhsTy)))

/-- The word that an operator gives. An integer plus a pointer is the pointer plus the integer,
unless a variable is updated. -/
def BinaryOp.compute (op : BinaryOp) (hw : Hardware) (inPlace : Bool) (lhsTy rhsTy ty : Ty)
    (x y : Word) : Word :=
  if !inPlace && rhsTy.isPointer && !lhsTy.isPointer then op.ordered hw rhsTy lhsTy ty y x
  else op.ordered hw lhsTy rhsTy ty x y

/-- A word was computed in a register that the result is now to get. -/
structure Computes (hw : Hardware) (p : Placement) (R : Realm) (inPlace : Bool)
    (target : ValueId) (w : Word) (c : Context) (s : MachineState) (dst : Register) (c' : Context)
    (s' : MachineState) : Prop where
  leads : Leads c c'
  executes : Executes hw p c s c' (s'.set dst w)
  reflects : Reflects hw p R c' s'
  bank : dst.bank = .int
  occupant : c'.registers.occupant? dst = if inPlace then some target else none

theorem lowerOrdered_computes (reflects : Reflects hw p R c s)
    (found_left : c.values.get? lhs = some left) (found_right : c.values.get? rhs = some right)
    (first : R.Words c lhs x) (second : R.Words c rhs y)
    (settles : inPlace = true → c.Settles hw lhs)
    (apart : 1 < stepSize lhsTy → rhsTy.isPointer = false → lhs ≠ rhs)
    (is_pointer : 1 < stepSize lhsTy → lhsTy.isPointer = true)
    (run : Runs (lowerOrdered op lhs rhs result lhsTy rhsTy ty inPlace) c u c')
    (separate : p.Separates c'.extent) : ∃ a dst c1 s1, (inPlace = true → a = lhs)
      ∧ Computes hw p R inPlace a (op.ordered hw lhsTy rhsTy ty x y) c s dst c1 s1
      ∧ Runs (finishResult dst a result inPlace) c1 u c' := by
  obtain ⟨a, b, sides, dst, c1, c2, c3, located, applied, fitted, finished⟩ :=
    runs_lowerOrdered found_left found_right run
  have takes := runs_applyRight (stepSize_pos lhsTy) applied
  have target (updates : inPlace = true) : a = lhs := by
    obtain ⟨rfl, _⟩ | ⟨_, _, fresh, _⟩ := sides
    · rfl
    · cases updates.symm.trans fresh
  obtain ⟨x', y', first', second', outcome⟩ : ∃ x' y', R.Words c a x' ∧ R.Words c b y'
      ∧ (op.aluOp ty.isSigned).eval hw x (y * lhsTy.factor rhsTy)
        = (op.aluOp ty.isSigned).eval hw x' (y' * lhsTy.factor rhsTy) := by
    obtain ⟨rfl, rfl⟩ | ⟨rfl, rfl, _, single, comm⟩ := sides
    · exact ⟨x, y, first, second, rfl⟩
    · refine ⟨y, x, second, first, ?_⟩
      have factor : lhsTy.factor rhsTy = 1 := by
        rw [Ty.factor, single]
        exact ite_self _
      rw [factor, mul_one, mul_one]
      exact AluOp.eval_comm hw (BinaryOp.isCommutative_aluOp comm _) _ _
  have leads1 : Leads c c1 :=
    .of_walks (walks_resultRegister a inPlace) located
  have leads2 : Leads c1 c2 := (Leads.withLock c1 dst true).trans takes.leads
  have leads3 : Leads c2 c3 := (Leads.appended _ _).trans (leads_canonicalize fitted)
  have leads4 : Leads c3 c' := (Leads.withLock c3 dst _).trans
    (.of_walks (walks_finishResult (fun _ => trivial) dst a) finished)
  have later := leads3.trans leads4
  obtain ⟨s1, ran1, reflects1, bank, range, content, occupant1⟩ :=
    resultRegister_simulates reflects first'
    (fun updates => target updates ▸ settles updates) located
      (separate.mono (leads2.trans later).extent)
  -- What is scaled is an integer, and the register has at most a pointer.
  have elsewhere : (decide (1 < stepSize lhsTy) && !(lhsTy.isPointer && rhsTy.isPointer)) = true →
      (c1.withLock dst true).registers.occupant? dst ≠ some b := by
    intro scaled
    simp only [Bool.and_eq_true, decide_eq_true_eq, Bool.not_eq_true'] at scaled
    have integer : rhsTy.isPointer = false := by simpa [is_pointer scaled.1] using scaled.2
    obtain ⟨rfl, rfl⟩ | ⟨_, _, _, single, _⟩ := sides
    · have occupant : (c1.withLock dst true).registers.occupant? dst
          = if inPlace then some a else none := by
        simpa [Context.withLock] using occupant1
      rw [occupant]
      split
      · exact fun same => apart scaled.1 integer (Option.some.inj same)
      · simp
    · omega
  obtain ⟨s2, ran2, reflects2, occupant2⟩ := takes.executes (reflects1.withLock dst true)
    (second'.after (leads1.trans (.withLock _ _ _))) (isLocked_lock_self _ range) elsewhere
    (separate.mono later.extent) (f := (op.aluOp ty.isSigned).eval hw)
      (fun _ _ => rfl) (fun _ _ => rfl)
  have given : (op.aluOp ty.isSigned).eval hw (s1.registers dst)
      (y' * if lhsTy.isPointer && rhsTy.isPointer then 1
      else BitVec.ofNat 64 (stepSize lhsTy)) = (op.aluOp ty.isSigned).eval hw x
        (y * lhsTy.factor rhsTy) := by
    rw [content, outcome, Ty.factor]
  rw [given] at ran2
  obtain ⟨instrs, rfl, _, ok⟩ := runs_canonicalize_fitted bank fitted
  refine ⟨a, dst, _, s2, target, ⟨(leads1.trans leads2).trans (leads3.trans (.withLock _ _ _)), ?_,
    ((reflects2.appended _).appended instrs).withLock _ _, bank, ?_⟩, finished⟩
  · refine ran1.trans ((Executes.of_code rfl).trans (ran2.trans ((Executes.appended
      (executeAll_division lhsTy rhsTy s2 _)).trans ((Executes.appended ?_).trans (.of_code rfl)))))
    rw [ok, registers_set, if_pos rfl, set_set]
    rfl
  · have same : c2.registers.occupant? dst = c1.registers.occupant? dst := by
      simpa [Context.withLock] using occupant2
    simpa [Context.withLock, Context.appended, same] using occupant1

theorem lowerIntBinary_computes {value : Value} (reflects : Reflects hw p R c s)
    (found : c.values.get? result = some value) (found_left : c.values.get? lhs = some left)
    (found_right : c.values.get? rhs = some right) (first : R.Words c lhs x)
    (second : R.Words c rhs y) (settles : inPlace = true → c.Settles hw lhs)
    (run : Runs (lowerIntBinary op lhs rhs result inPlace) c u c')
    (separate : p.Separates c'.extent) : ∃ a dst c1 s1, (inPlace = true → a = lhs)
      ∧ Computes hw p R inPlace a
      (op.compute hw inPlace left.ty right.ty value.ty x y) c s dst c1 s1
      ∧ Runs (finishResult dst a result inPlace) c1 u c' := by
  have is_pointer {ty : Ty} (steps : 1 < stepSize ty) : ty.isPointer = true := by
    unfold stepSize at steps
    split at steps
    · next is_pointee => exact isPointer_of_pointee? is_pointee
    · omega
  -- Only an integer is scaled, so it is not the pointer.
  have apart {a b : ValueId} {va vb : Value} (found_a : c.values.get? a = some va)
      (found_b : c.values.get? b = some vb) (steps : 1 < stepSize va.ty)
        (integer : vb.ty.isPointer = false) :
      a ≠ b := by
    rintro rfl
    obtain rfl := Option.mem_unique found_a found_b
    simp [is_pointer steps] at integer
  have ordered := runs_lowerIntBinary found found_left found_right run
  unfold BinaryOp.compute
  split at ordered
  · next turned =>
    rw [if_pos turned]
    have fresh : inPlace = false := by
      simp only [Bool.and_eq_true, Bool.not_eq_true'] at turned
      exact turned.1.1
    obtain ⟨a, dst, c1, s1, _, computes⟩ :=
      lowerOrdered_computes reflects found_right found_left second first
      (fun updates => by simp [fresh] at updates)
        (apart found_right found_left) is_pointer ordered separate
    exact ⟨a, dst, c1, s1, fun updates => by simp [fresh] at updates, computes⟩
  · next turned =>
    rw [if_neg turned]
    exact lowerOrdered_computes reflects found_left found_right first second settles
      (apart found_left found_right) is_pointer ordered separate

theorem lowerBinary_mirrors {value : Value}
    (mirrors : Mirrors hw p env c s) (found : c.values.get? result = some value)
    (fits : value.ty.isBool = true →
      value.ty.canonicalBits ((op.aluOp value.ty.isSigned).eval hw (env lhs) (env rhs))
        = (op.aluOp value.ty.isSigned).eval hw (env lhs) (env rhs))
    (kind : if inPlace then result = lhs ∧ value.isNamed = true else value.kind = .temporary)
    (run : Runs (lowerBinary op lhs rhs result inPlace) c u c') (separate : p.Separates c'.extent) :
    Sets hw p env c s c' result
    (value.ty.canonicalBits ((op.aluOp value.ty.isSigned).eval hw (env lhs) (env rhs))) := by
  simp only [lowerBinary, runs_bind, runs_discard, runs_valueOf, and_assoc, exists_and_left,
    exists_eq_left] at run
  obtain ⟨left, found_left, _, _, ⟨right, found_right, same⟩, _, _, ⟨_, _, same'⟩, run⟩ := run
  rw [same', same] at run
  have plain := mirrors.ints found
  have sized := registerSized_of_isPlain plain
  simp only [isFloat_of_isPlain (mirrors.ints found_left), Bool.false_eq_true, ↓reduceIte] at run
  obtain ⟨a, dst, c1, s1, target, computes, finished⟩ :=
    lowerIntBinary_computes mirrors found found_left
    found_right (mirrors.words lhs) (mirrors.words rhs) (fun _ => mirrors.settles lhs) run separate
  have computed : op.compute hw inPlace left.ty right.ty value.ty (env lhs) (env rhs)
      = value.ty.canonicalBits
      ((op.aluOp value.ty.isSigned).eval hw (env lhs) (env rhs)) := by
    have single : stepSize left.ty = 1 := by
      rw [stepSize, pointee?_of_isPlain (mirrors.ints found_left)]
    simp only [BinaryOp.compute, BinaryOp.ordered, Ty.inSteps, Ty.factor,
      isPointer_of_isPlain (mirrors.ints found_right), Bool.and_false, Bool.false_and,
        Bool.false_eq_true,
      ↓reduceIte, single, BitVec.mul_one]
    rw [fitted_of_registerSized sized, narrow_eq_canonicalBits sized fits]
  rw [computed] at computes
  have canonical :=
    canonicalBits_idem value.ty ((op.aluOp value.ty.isSigned).eval hw (env lhs) (env rhs))
  obtain ⟨value1, found1, ages⟩ := computes.leads.values found
  cases inPlace with
  | true =>
    obtain ⟨rfl, is_named⟩ := kind
    obtain rfl := target rfl
    have is_named1 := (Value.isNamed_eq_of_nature ages.nature).trans is_named
    have dirtied :=
      markDirty_mirrors computes.reflects found1 is_named1 computes.occupant computes.bank
      (by rw [ages.ty, canonical]) finished
    exact ⟨_, computes.executes.trans
      (.of_code (markDirty_books found1 is_named1 finished).2), dirtied⟩
  | false =>
    have temporary : c.Temporary result value.ty := ⟨value, found, kind, rfl⟩
    obtain ⟨quiet, bound⟩ :=
      bindRegister_result computes.reflects (computes.leads.temporary temporary)
      canonical finished
    exact ⟨_, computes.executes.trans quiet, bound⟩

theorem Books.put_put (b : Books) (v : ValueId) (first second : Standing) :
    (b.put v first).put v second = b.put v second := by
  simp [put]

theorem standing_of_put (books : c.books = b.put v st) :
    ∃ value, c.values.get? v = some value ∧ value.standing = st := by
  have standing : c.books.standing v = some st := by
    rw [books]
    exact Function.update_self v (some st) b.standing
  exact Option.map_eq_some_iff.mp standing

theorem markDirty_put (books : c.books = b.put v st) (is_named : st.named = true)
    (run : Runs (markDirty v) c u c') :
    c'.books = b.put v { st with dirty := true } ∧ c'.code = c.code := by
  obtain ⟨value, found, rfl⟩ := standing_of_put books
  obtain ⟨after, code⟩ := markDirty_books found is_named run
  exact ⟨by rw [after, books, Books.put_put], code⟩

theorem bindRegister_put (books : c.books = b.put v st) (run : Runs (bindRegister r v) c u c') :
    c'.books = (b.occupy r (some v)).put v { st with position := some (.register r) }
      ∧ ∀ t, Executes hw p c t c' t := by
  obtain ⟨value, found, rfl⟩ := standing_of_put books
  obtain ⟨_, found', _, _, range, _, remarks, only, rfl⟩ := runs_bindRegister run
  obtain rfl := Option.mem_unique found found'
  refine ⟨(books_seated c.registers range found).trans ?_, fun t =>
    .remarks (fun i member => (only i member).remark) rfl⟩
  rw [books]
  exact Books.put_put (b.occupy r (some v)) v _ _

def Gen.fitAdopted (r : Register) (targetTy sourceTy : Ty) : Gen Unit :=
  if targetTy.isBool && !sourceTy.isBool then emit (.cmpImm r 0 .ne)
  else if sourceTy.unqualified ≠ targetTy.unqualified then canonicalize r targetTy
  else pure ()

theorem fitAdopted_executes (bank : r.bank = .int) (plain : ty.isPlain = true)
    (plain_source : source.isPlain = true) (canonical : source.canonicalBits w = w)
    (run : Runs (fitAdopted r ty source) c u c') : ∃ instrs, c' = c.appended instrs
      ∧ ∀ s : MachineState, Executes hw p c (s.set r w) c' (s.set r (ty.canonicalBits w)) := by
  unfold fitAdopted at run
  obtain ⟨to_bool, run⟩ | ⟨not_to_bool, run⟩ := runs_ite.mp run
  · simp only [Bool.and_eq_true] at to_bool
    obtain rfl := runs_emit.mp run
    refine ⟨[.cmpImm r 0 .ne], by simp [Context.pushed, Context.appended], fun s => ?_⟩
    rw [canonicalBits_of_isBool to_bool.1]
    exact cmpImm_executes
  obtain ⟨different, run⟩ | ⟨same, run⟩ := runs_ite.mp run
  · have sized := registerSized_of_isPlain plain
    have integer : ty.isBool = false := by
      by_contra is_bool
      rw [Bool.not_eq_false] at is_bool
      simp only [is_bool, Bool.true_and, Bool.not_eq_true', Bool.not_eq_false] at not_to_bool
      rw [eq_bool_of_isBool plain is_bool, eq_bool_of_isBool plain_source not_to_bool] at different
      exact different rfl
    obtain ⟨instrs, rfl, _⟩ := runs_canonicalize bank sized run
    refine ⟨instrs, rfl, fun s => ?_⟩
    rw [canonicalBits_eq_narrow sized integer]
    exact canonicalize_executes bank sized run s w
  · obtain ⟨_, rfl⟩ := runs_pure.mp run
    refine ⟨[], by simp [Context.appended], fun s => ?_⟩
    rw [unqualified_of_isPlain plain, unqualified_of_isPlain plain_source, ne_eq,
      Decidable.not_not] at same
    rw [← same, canonical]
    exact .of_code rfl

/-- A register held by `v` is given up without a word about its contents. -/
def Gen.Abandons (v : ValueId) (c c' : Context) : Prop :=
  ∃ value, c.values.get? v = some value
    ∧ (value.register? = none ∧ c' = c ∨ ∃ old w, value.register? = some old
      ∧ Runs (unbindRegister old) { c with values := c.values.modify v (·.setDirty false) } w c')

theorem Gen.runs_adopt (run : Runs (adopt target value r ty source) c u c') :
    ∃ n w c1 c2 c3 c4 c5, Runs (consume value) c n c1 ∧ Runs (unbindRegister r) c1 w c2
      ∧ Abandons target c2 c3 ∧ Runs (fitAdopted r ty source) c3 () c4
      ∧ Runs (bindRegister r target) c4 () c5 ∧ Runs (markDirty target) c5 u c' := by
  simp only [adopt, runs_bind, runs_discard, runs_valueOf, and_assoc, exists_and_left,
    exists_eq_left] at run
  obtain ⟨_, c1, ⟨n, consumed⟩, _, c2, ⟨w, unbound⟩, old_value, found, run⟩ := run
  have fitted {c3 : Context} (run : Runs (if (ty.isBool && !source.isBool) = true then do
      emit (.cmpImm r 0 .ne)
      bindRegister r target
      markDirty target
    else if source.unqualified ≠ ty.unqualified then do
      canonicalize r ty
      bindRegister r target
      markDirty target
    else do
      bindRegister r target
      markDirty target) c3 u c') : ∃ c4 c5, Runs (fitAdopted r ty source) c3 () c4
        ∧ Runs (bindRegister r target) c4 () c5 ∧ Runs (markDirty target) c5 u c' := by
    unfold fitAdopted
    by_cases to_bool : (ty.isBool && !source.isBool) = true
    · simp only [to_bool, ↓reduceIte, runs_bind] at run ⊢
      obtain ⟨_, c4, fitted, _, c5, bound, dirtied⟩ := run
      exact ⟨c4, c5, fitted, bound, dirtied⟩
    · by_cases different : source.unqualified ≠ ty.unqualified
      · simp only [to_bool, different, Bool.false_eq_true, ↓reduceIte, runs_bind, ne_eq,
          not_false_eq_true] at run ⊢
        obtain ⟨_, c4, fitted, _, c5, bound, dirtied⟩ := run
        exact ⟨c4, c5, fitted, bound, dirtied⟩
      · simp only [to_bool, different, Bool.false_eq_true, ↓reduceIte, runs_bind,
          runs_pure] at run ⊢
        obtain ⟨_, c5, bound, dirtied⟩ := run
        exact ⟨c3, c5, ⟨trivial, rfl⟩, bound, dirtied⟩
  cases at_register : old_value.register? with
  | none =>
    simp only [at_register] at run
    obtain ⟨c4, c5, fit, bound, dirtied⟩ := fitted run
    exact ⟨n, w, c1, c2, c2, c4, c5, consumed, unbound, ⟨old_value, found, .inl ⟨at_register, rfl⟩⟩,
      fit, bound, dirtied⟩
  | some old =>
    simp only [at_register, runs_bind, runs_updateValue, runs_discard] at run
    obtain ⟨_, _, ⟨_, rfl⟩, _, c3, ⟨w', abandoned⟩, run⟩ := run
    obtain ⟨c4, c5, fit, bound, dirtied⟩ := fitted run
    exact ⟨n, w, c1, c2, c3, c4, c5, consumed, unbound,
      ⟨old_value, found, .inr ⟨old, w', at_register, abandoned⟩⟩, fit, bound, dirtied⟩

theorem Gen.Abandons.books {value : Value} (abandons : Abandons v c c')
    (mirrors : Mirrors hw p env c s) (found : c.values.get? v = some value) :
    ∃ position dirty,
      c'.books = (c.books.without v).put v { value.standing with position, dirty } := by
  obtain ⟨_, found', ⟨outside, rfl⟩ | ⟨old, w, at_old, unbound⟩⟩ := abandons
  · obtain rfl := Option.mem_unique found found'
    refine ⟨value.position, value.isDirty, ?_⟩
    rw [mirrors.tracks.without_of_outside (standing_books found) (position_ne_of_outside outside)]
    exact Books.ext (Function.update_eq_self_iff.mpr (standing_books found).symm).symm rfl rfl
  · obtain rfl := Option.mem_unique found found'
    obtain ⟨value', found_v, occupied, range, _, _, remarks, _, rfl⟩ := runs_unbindRegister unbound
    have pos := position_of_register? at_old
    obtain rfl : w = v := by
      have mine := mirrors.occupant? found at_old
      exact Option.mem_unique occupied mine
    have is_value : value' = value.setDirty false := by
      rw [ValueStore.get?_modify, if_pos rfl, found] at found_v
      exact (Option.some.inj found_v).symm
    subst is_value
    refine ⟨(value.setDirty false).home?, value.isNamed && false, ?_⟩
    rw [books_relocated (c := { c with values := c.values.modify w (·.setDirty false) })
      range none found_v, books_modify found,
      mirrors.tracks.without_of_seated (standing_books found) pos,
      standing_setDirty]
    exact Books.put_put (c.books.occupy old none) w _ _

theorem Gen.Abandons.walked (abandons : Abandons v c c') (homed : c.Homed) :
    c'.Homed ∧ Leads c c' ∧ ∀ t, Executes hw p c t c' t := by
  obtain ⟨value, found, ⟨_, rfl⟩ | ⟨old, w, _, unbound⟩⟩ := abandons
  · exact ⟨homed, .refl _, fun _ => .of_code rfl⟩
  · obtain ⟨homed1, leads1, _⟩ := walks_setDirty (D := .homed) v false () _ homed
      (runs_updateValue.mpr ⟨⟨value, found⟩, rfl⟩)
    obtain ⟨homed2, leads2, _⟩ := walks_unbindRegister (D := .homed) old _ _ homed1 unbound
    refine ⟨homed2, leads1.trans leads2, fun t => ?_⟩
    obtain ⟨_, _, _, _, _, _, remarks, only, rfl⟩ := runs_unbindRegister unbound
    exact .remarks (fun i member => (only i member).remark) rfl

section
variable (mirrors : Mirrors hw p env c s)
include mirrors

theorem adopt_mirrors {source : Value}
    (found : c.values.get? target = some old) (is_named : old.isNamed = true)
    (found_source : c.values.get? value = some source) (at_register : source.register? = some r)
    (run : Runs (adopt target value r old.ty source.ty) c u c') :
    Sets hw p env c s c' target (old.ty.canonicalBits (env value)) := by
  obtain ⟨n, w, c1, c2, c3, c4, c5, consumed, unbound, abandons, fitted, bound, dirtied⟩ :=
    runs_adopt run
  have plain := mirrors.ints found
  have plain_source := mirrors.ints found_source
  have pos := position_of_register? at_register
  have content := mirrors.register_of_register? found_source at_register
  have canonical := mirrors.canonicalBits_eq found_source (.inl (by simp [pos]))
  have bank : r.bank = .int := by
    rw [← (mirrors.tracks.seated (standing_books found_source) pos).1]
    exact bank_of_isPlain plain_source
  have first := consume_simulates mirrors consumed
  -- The temporary gives its register away.
  obtain ⟨homed2, leads2, _⟩ :=
    walks_unbindRegister (D := .homed) r _ _ first.reflects.homed unbound
  have empty : c2.registers.occupant? r = none := occupant?_of_unbindRegister unbound
  obtain ⟨mirrors2, quiet2⟩ : Mirrors hw p env c2 s ∧ Executes hw p c1 s c2 s := by
    obtain ⟨value1, found1, _, range, position1, clean, remarks, only, rfl⟩ :=
      runs_unbindRegister unbound
    refine ⟨first.reflects.after homed2 leads2 ?_,
      .remarks (fun i member => (only i member).remark) rfl⟩
    rw [books_relocated range none found1]
    exact first.reflects.tracks.release (standing_books found1) position1 clean
  -- The variable gives up its own and gets this one.
  obtain ⟨old2, found2, ages⟩ := (first.leads.trans leads2).values found
  have is_named2 : old2.isNamed = true := (isNamed_eq_of_nature ages.nature).trans is_named
  obtain ⟨homed3, leads3, quiet3⟩ :
    c3.Homed ∧ Leads c2 c3 ∧ ∀ t, Executes hw p c2 t c3 t := abandons.walked homed2
  obtain ⟨_, _, books3⟩ := abandons.books mirrors2 found2
  obtain ⟨instrs, rfl, fit⟩ : ∃ instrs, c4 = c3.appended instrs ∧ ∀ s, Executes hw p c3 _ c4 _ :=
    fitAdopted_executes bank plain plain_source canonical fitted
  have homed4 : (c3.appended instrs).Homed := homed3
  obtain ⟨homed5, leads5, _⟩ := walks_bindRegister (D := .homed) trivial _ _ homed4 bound
  obtain ⟨homed6, leads6, _⟩ := walks_markDirty (D := .homed) target _ _ homed5 dirtied
  obtain ⟨books5, quiet5⟩ : c5.books = _ ∧ ∀ t, Executes hw p (c3.appended instrs) t c5 t :=
    bindRegister_put books3 bound
  obtain ⟨books6, code6⟩ := markDirty_put books5 is_named2 dirtied
  have unconstant : old2.constant? = none := by
    cases kind : old2.kind <;> simp_all [Value.constant?, isNamed, named?]
  have seated := mirrors2.seat (w := old.ty.canonicalBits (env value)) found2 books6 homed6
    (leads3.trans ((Leads.appended _ _).trans (leads5.trans leads6))) (by simp [empty])
    (by simp [unconstant]) (fun _ => .inl rfl) (by simp) bank (by rw [ages.ty, canonicalBits_idem])
  have ran := fit s
  rw [set_self content] at ran
  exact ⟨_, first.executes.trans (quiet2.trans ((quiet3 s).trans (ran.trans ((quiet5 _).trans
    (.of_code code6))))), seated⟩

theorem convertAndConsume_executes {n : Nat} (bank : r.bank = .int)
    (plain : ty.isPlain = true) (copied : Runs (copyConverted value (.register r) ty) c u c1)
    (consumed : Runs (consume value) c1 n c') : ∃ s1, Mirrors hw p env c' s1 ∧ c'.books = c.books
      ∧ Executes hw p c s c' (s1.set r (ty.canonicalBits (env value))) := by
  obtain ⟨s1, mirrors1, books, ran⟩ := copyConverted_executes mirrors bank plain copied
  refine ⟨s1, (consume_simulates mirrors1 consumed).reflects, ?_, ran.trans ?_⟩
  · obtain ⟨read, found, _, rfl⟩ := runs_consume consumed
    rw [books_modify found, ← books]
    exact Books.ext (Function.update_eq_self_iff.mpr (standing_books found).symm) rfl rfl
  · obtain ⟨_, _, _, rfl⟩ := runs_consume consumed
    exact .of_code rfl

section
variable (found : c.values.get? target = some old)
include found

theorem assignToNew_mirrors {n : Nat} {u1 u2 u3 : Unit} {c2 c3 c4 c5 c6 : Context}
    (is_named : old.isNamed = true) (obtained : Runs (obtainRegister old.ty.bank) c r c3)
    (copied : Runs (copyConverted value (.register r) old.ty) (c3.withLock r true) u1 c4)
    (consumed : Runs (consume value) c4 n c5) (bound : Runs (bindRegister r target) c5 u2 c6)
    (unlocked : c6.Relocks c2) (dirtied : Runs (markDirty target) c2 u3 c')
    (separate : p.Separates c'.extent) :
    Sets hw p env c s c' target (old.ty.canonicalBits (env value)) := by
  have plain := mirrors.ints found
  have leads5 : Leads c3 c5 := (Leads.withLock c3 r true).trans
    ((Leads.of_walks (walks_copyConverted value _ old.ty) copied).trans
      (.of_walks (walks_consume value) consumed))
  have leads6 := leads_bindRegister bound
  have leads2 := unlocked.leads
  have leads' : Leads c2 c' := .of_walks (walks_markDirty target) dirtied
  have tail := leads6.trans (leads2.trans leads')
  obtain ⟨s1, first, obtains⟩ :=
    obtainRegister_simulates mirrors obtained (separate.mono (leads5.trans tail).extent)
  have bank : r.bank = .int := obtains.bank.trans (bank_of_isPlain plain)
  obtain ⟨s5, mirrors5, books5, ran⟩ :=
    convertAndConsume_executes (first.reflects.withLock r true) bank plain copied consumed
  obtain ⟨old5, found5, ages⟩ := (first.leads.trans leads5).values found
  have is_named5 : old5.isNamed = true := (isNamed_eq_of_nature ages.nature).trans is_named
  have unconstant : old5.constant? = none := by
    cases kind : old5.kind <;> simp_all [Value.constant?, isNamed, named?]
  obtain ⟨books6, _, _, _, empty5, _, _, quiet⟩ := bindRegister_books mirrors5 found5 bound
  obtain ⟨books', code⟩ := markDirty_put (unlocked.books.trans books6) is_named5 dirtied
  obtain ⟨homed6, _⟩ := walks_bindRegister (D := .homed) trivial _ _ mirrors5.homed bound
  have homed2 : c2.Homed := by
    obtain ⟨_, rfl⟩ := unlocked
    exact homed6
  obtain ⟨homed', _⟩ := walks_markDirty (D := .homed) target _ _ homed2 dirtied
  have seated := mirrors5.seat (w := old.ty.canonicalBits (env value)) found5 books' homed' tail
    (by simp [empty5]) (by simp [unconstant]) (fun _ => .inl rfl) (by simp) bank
    (by rw [ages.ty, canonicalBits_idem])
  exact ⟨_, first.executes.trans ((Executes.of_code rfl).trans (ran.trans ((quiet _).trans
    ((Executes.of_code unlocked.code).trans (.of_code code))))), seated⟩

theorem assignInRegister_mirrors
    (is_named : old.isNamed = true) (run : Runs (assignInRegister target value old.ty) c u c')
    (separate : p.Separates c'.extent) :
    Sets hw p env c s c' target (old.ty.canonicalBits (env value)) := by
  have plain := mirrors.ints found
  have canonical := canonicalBits_idem old.ty (env value)
  simp only [assignInRegister, runs_bind] at run
  obtain ⟨_, c2, held, dirtied⟩ := run
  obtain ⟨c0, c1, enter, block, leave, _⟩ := runs_holdingRegisterOf held
  have mirrors0 := mirrors.relocks enter
  have found0 : c0.values.get? target = some old := enter.values ▸ found
  rw [runs_found found0] at block
  cases at_register : old.register? with
  | some r =>
    simp only [at_register, runs_pure, runs_bind, Option.isNone_some,
      Bool.false_eq_true, ↓reduceIte, exists_eq_left, and_assoc, exists_and_left] at block
    obtain ⟨c5, inner, rfl⟩ := runs_holding.mp block
    simp only [runs_bind, runs_discard, runs_pure] at inner
    obtain ⟨_, c3, copied, _, c4, ⟨n, consumed⟩, _, rfl⟩ := inner
    have pos := Value.position_of_register? at_register
    have bank : r.bank = .int := by
      rw [← (mirrors.tracks.seated (standing_books found) pos).1]
      exact bank_of_isPlain plain
    obtain ⟨s5, mirrors5, books, ran⟩ :=
      convertAndConsume_executes (mirrors0.withLock r true) bank plain copied consumed
    have books2 : c2.books = c.books := by
      rw [leave.books, books_withLock, books, books_withLock, enter.books]
    have mirrors2 := (mirrors5.withLock r (c0.registers.isLocked r)).relocks leave
    obtain ⟨old2, found2, standing⟩ : ∃ value, c2.values.get? target = some value
        ∧ value.standing = old.standing :=
      Option.map_eq_some_iff.mp ((congrFun (congrArg Books.standing books2) target).trans
        (standing_books found))
    have ty2 : old2.ty = old.ty := congrArg Standing.ty standing
    have is_named2 : old2.isNamed = true := (congrArg Standing.named standing).trans is_named
    have occupied : c2.registers.occupant? r = some target :=
      (congrFun (congrArg Books.occupant books2) r).trans (mirrors.occupant? found at_register)
    have code := (markDirty_books found2 is_named2 dirtied).2
    refine ⟨_, ?_, markDirty_mirrors mirrors2 found2 is_named2 occupied bank
      (ty2 ▸ canonical) dirtied⟩
    exact (Executes.of_code enter.code).trans ((Executes.of_code rfl).trans (ran.trans
      ((Executes.of_code rfl).trans ((Executes.of_code leave.code).trans (.of_code code)))))
  | none =>
    simp only [at_register, runs_bind, Option.isNone_none, ↓reduceIte] at block
    obtain ⟨r, c3, obtained, block⟩ := block
    obtain ⟨c6, inner, rfl⟩ := runs_holding.mp block
    simp only [runs_bind, runs_discard] at inner
    obtain ⟨_, c4, copied, _, c5, ⟨n, consumed⟩, bound⟩ := inner
    obtain ⟨locked, rfl⟩ := leave
    obtain ⟨s', ran, mirrors'⟩ :=
      assignToNew_mirrors mirrors0 found0 is_named obtained copied consumed
      bound ⟨locked, rfl⟩ dirtied separate
    exact ⟨s', (Executes.of_code enter.code).trans ran, mirrors'⟩

theorem lowerAssign_mirrors
    (run : Runs (lowerAssign target value) c u c') (separate : p.Separates c'.extent) :
    Sets hw p env c s c' target (old.ty.canonicalBits (env value)) := by
  rw [lowerAssign, runs_found found] at run
  have plain := mirrors.ints found
  cases is_data : old.named? with
  | none => simp [is_data] at run
  | some data =>
    have is_named : old.isNamed = true := by simp [isNamed, is_data]
    simp only [is_data] at run
    obtain ⟨source, found_source, run⟩ := runs_valueOf_bind.mp run
    split at run
    · next r _ at_register =>
      exact adopt_mirrors mirrors found is_named found_source at_register run
    · rw [if_pos (fitsRegister_of_isPlain plain)] at run
      exact assignInRegister_mirrors mirrors found is_named run separate

end

end

end RegisterBackend
