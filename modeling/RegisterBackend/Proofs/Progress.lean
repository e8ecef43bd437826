import RegisterBackend.Proofs.Course

/-!
Every rule of lowering keeps every discipline; where one gives a position to a value, the value has
to be admitted.
-/
namespace RegisterBackend

variable {c c' : Context} {u : Unit} {args : List ValueId} {callee : Callee} {decl : Declaration}
  {dst r : Register} {functions : Array Declaration} {home pos source : Position}
  {inPlace isLast : Bool} {item : BodyItem} {old value : Value} {ranges : List (Option (Nat × Nat))}
  {rest : List Declaration} {result target v : ValueId} {sig : Signature} {slot : StackSlot}
  {start : Option LabelId}

namespace Gen

theorem lowerItem_eq (functions : Array Declaration) (decl : Declaration) (item : BodyItem)
    (isLast : Bool) : lowerItem functions decl item isLast = (do
      lowerUnchecked functions decl item isLast
      if (← get).options.verify then checkConsistency) := by
  unfold lowerItem lowerUnchecked
  split <;> simp only [bind_assoc]

theorem runs_checkConsistency (run : Runs checkConsistency c u c') : c' = c := by
  rw [checkConsistency, runs_get_bind] at run
  split at run
  · exact (runs_pure.mp run).2
  · exact (runs_throw.mp run).elim

theorem runs_lowerUnchecked (run : Runs (lowerItem functions decl item isLast) c u c') :
    Runs (lowerUnchecked functions decl item isLast) c () c' := by
  simp only [lowerItem_eq, runs_bind, runs_get, and_assoc, exists_and_left, exists_eq_left] at run
  obtain ⟨_, c1, lowered, checked⟩ := run
  obtain rfl : c' = c1 := by
    obtain ⟨_, checked⟩ | ⟨_, checked⟩ := runs_ite.mp checked
    · exact runs_checkConsistency checked
    · exact (runs_pure.mp checked).2
  exact lowered

theorem runs_lowerFunctions_ranges
    (run : Runs (lowerFunctions functions (decl :: rest)) c ranges c') :
    (decl.isExternal = true ∧ ∃ later, ranges = none :: later
      ∧ Runs (lowerFunctions functions rest) c later c')
      ∨ (decl.isExternal = false ∧ ∃ range c1 later, ranges = some range :: later
        ∧ Runs (lowerFunction functions decl) c range c1
        ∧ Runs (lowerFunctions functions rest) c1 later c') := by
  rw [lowerFunctions] at run
  split at run
  · next external =>
    obtain ⟨_, _, skipped, more⟩ := runs_bind.mp run
    obtain ⟨rfl, rfl⟩ := runs_pure.mp skipped
    obtain ⟨later, _, more, ended⟩ := runs_bind.mp more
    obtain ⟨rfl, rfl⟩ := runs_pure.mp ended
    exact .inl ⟨external, later, rfl, more⟩
  · next internal =>
    obtain ⟨_, c1, ranged, more⟩ := runs_bind.mp run
    obtain ⟨range, lowered, rfl⟩ := runs_map.mp ranged
    obtain ⟨later, _, more, ended⟩ := runs_bind.mp more
    obtain ⟨rfl, rfl⟩ := runs_pure.mp ended
    exact .inr ⟨by simpa using internal, range, c1, later, rfl, lowered, more⟩

theorem runs_lowerFunctions_cons
    (run : Runs (lowerFunctions functions (decl :: rest)) c ranges c') :
    (decl.isExternal = true ∧ ∃ ranges, Runs (lowerFunctions functions rest) c ranges c')
      ∨ (decl.isExternal = false ∧ ∃ range c1 ranges, Runs (lowerFunction functions decl) c range c1
        ∧ Runs (lowerFunctions functions rest) c1 ranges c') := by
  obtain ⟨external, later, _, more⟩ | ⟨internal, range, c1, later, _, lowered, more⟩ :=
    runs_lowerFunctions_ranges run
  · exact .inl ⟨external, later, more⟩
  · exact .inr ⟨internal, range, c1, later, lowered, more⟩

end Gen

namespace Discipline

open Gen

variable {α : Type} {D : Discipline}

theorem walks_loadAddress (dst : Register) (pos : Position) : D.Walks c (loadAddress dst pos) := by
  cases pos with
  | register r => exact walks_inconsistent _
  | stack slot => exact walks_quiet rfl
  | static offset | constant id => exact walks_seq (walks_quiet rfl) (walks_quiet rfl)

section
variable {scratch : Gen Register} (walks_scratch : ∀ {c}, D.Walks c scratch)
include walks_scratch

theorem walks_storeVia (src : Register) (target : Position) (ty : Ty) :
    D.Walks c (storeVia scratch src target ty) := by
  have through : D.Walks c (holding src do
      let ptr ← scratch
      loadAddress ptr target
      Gen.emit (.storePtr ptr src ty.size.toUInt8)) :=
    walks_holding (walks_seq walks_scratch
      (walks_seq (walks_loadAddress _ _) (walks_quiet rfl)))
  unfold storeVia
  cases target with
  | register dst => exact walks_ite (fun _ => walks_quiet rfl) fun _ => walks_pure _
  | stack slot => exact walks_quiet rfl
  | static offset => exact through
  | constant id => exact through

theorem walks_writeBackVia (v : ValueId) (r : Register) : D.Walks c (writeBackVia scratch v r) :=
  walks_seq (walks_homeOf v) <| walks_valueOf fun _ =>
    walks_seq (walks_storeVia walks_scratch _ _ _) <|
      walks_seq (walks_setDirty _ _) (walks_record _)

end

theorem walks_spill (found : c.values.get? v = some value) (unnamed : value.isNamed = false)
    (here : c.registers.occupant? r = some v ∨ value.position = some (.register r)) :
    D.Walks c (Gen.spill v r) := by
  intro u c' held run
  obtain ⟨_, slot, c1, occupant, same, hands, range, occupied, rfl⟩ := runs_spill run
  obtain rfl := Option.mem_unique found same
  have own : occupant = v ∨ value.position = some (.register r) :=
    here.imp_left fun is_occupant => Option.mem_unique occupied is_occupant
  refine ⟨D.aside (D.spill held found unnamed occupied own hands)
    ⟨rfl, fun _ => rfl, fun _ => rfl, fun _ => le_rfl, rfl⟩, ?_, ?_⟩
  · refine (Leads.hands hands fun _ => ⟨slot, rfl⟩).trans ?_
    refine (Leads.modify c1 v (f := ({ · with position := some (.stack slot) }))
      fun _ => ⟨rfl, rfl, id, id⟩).trans ?_
    exact .of_same rfl rfl (by simp) rfl rfl rfl rfl
  · simpa using locked_hands hands

theorem walks_vacateVia {scratch : Gen Register} (walks_scratch : ∀ {c}, D.Walks c scratch)
    (r : Register) : D.Walks c (vacateVia scratch r) := by
  refine walks_occupantOf ?_
  cases occupied : c.registers.occupant? r with
  | none => exact walks_inconsistent _
  | some v =>
    refine walks_valueOf fun {value} found => ?_
    refine walks_ite (fun _ => walks_discard (walks_unbindRegister r)) fun _ => ?_
    refine walks_ite (fun _ => ?_) fun unnamed => ?_
    · exact walks_seq (walks_writeBackVia walks_scratch v r)
        (walks_discard (walks_unbindRegister r))
    · exact walks_spill found (by simpa using unnamed) (.inl occupied)

theorem walks_obtainRegister (bank : Bank) : D.Walks c (obtainRegister bank) := by
  intro r c' held run
  refine obtainRegister_induction
    (P := fun _ c _ c' => D.holds c →
      D.holds c' ∧ Leads c c' ∧ c'.registers.locked = c.registers.locked)
    ?free ?drop ?evict run held
  case free => exact fun _ held => ⟨held, .refl _, rfl⟩
  case drop => exact fun _ unbound held => walks_unbindRegister _ _ _ held unbound
  case evict =>
    intro bank c r c' scratch _ inner vacated held
    exact walks_vacateVia (fun _ _ held taken => inner taken held) r _ _ held vacated

theorem walks_store (src : Register) (target : Position) (ty : Ty) :
    D.Walks c (store src target ty) :=
  walks_storeVia (walks_obtainRegister _) src target ty

theorem walks_writeBack (v : ValueId) (r : Register) : D.Walks c (writeBack v r) :=
  walks_writeBackVia (walks_obtainRegister _) v r

theorem walks_vacate (r : Register) : D.Walks c (vacate r) :=
  walks_vacateVia (walks_obtainRegister _) r

theorem walks_moveOccupant {source target : Register} (bank : target.bank = source.bank) :
    D.Walks c (moveOccupant source target) := by
  intro u c' held run
  obtain ⟨v, _, occupied, _, range, range', empty, remarks, only, rfl⟩ := runs_moveOccupant run
  have moved := D.move held occupied range range' bank empty
  have touched : D.holds { c.pushed (.mov target source) with
      registers := (c.registers.setOccupant source none).setOccupant target (some v)
      values := (c.values.modify v ({ · with position := some (.register target) })).touch v } :=
    D.aside moved ⟨rfl, fun w => ValueStore.map_get?_touch _ v w _ fun _ _ => rfl, fun _ => rfl,
      fun _ => le_rfl, rfl⟩
  refine ⟨holds_appended touched fun i member => (only i member).of_values rfl, ?_,
    by simp⟩
  refine (Leads.modify c v (f := ({ · with position := some (.register target) }))
    fun _ => ⟨rfl, rfl, id, id⟩).trans ((Leads.touch _ v).trans ?_)
  exact .of_same rfl rfl (by simp) rfl rfl rfl rfl

theorem walks_displace (r : Register) : D.Walks c (displace r) := by
  refine walks_occupantOf (walks_ite (fun _ => walks_get ?_) fun _ => walks_pure _)
  split
  · next other other_found =>
    exact walks_moveOccupant (RegisterFile.mem_free.mp (List.mem_of_find?_eq_some other_found)).1
  · exact walks_vacate r

theorem walks_flush (v : ValueId) : D.Walks c (flush v) := by
  refine walks_valueOf fun {value} _ => walks_ite (fun _ => ?_) fun _ => walks_pure _
  split
  · exact walks_inconsistent _
  · exact walks_holding (walks_writeBack v _)

theorem walks_flushAll : D.Walks c flushAll := by
  refine walks_get (walks_seq (walks_forIn (fun occupied _ _ => ?_) _) (walks_pure _))
  exact walks_seq (walks_flush occupied.2) (walks_pure _)

theorem walks_releaseEscaped : D.Walks c releaseEscaped := by
  refine walks_get (walks_seq (walks_forIn (fun occupied _ _ => ?_) _) (walks_pure _))
  refine walks_valueOf fun _ => walks_ite (fun _ => ?_) fun _ => walks_pure _
  exact walks_seq (walks_flush _)
    (walks_seq (walks_discard (walks_unbindRegister _)) (walks_pure _))

theorem walks_vacateAll : D.Walks c vacateAll := by
  refine walks_get (walks_seq (walks_forIn (fun occupied _ _ => ?_) _) (walks_pure _))
  refine walks_occupantOf (walks_ite (fun _ => ?_) fun _ => walks_pure _)
  exact walks_seq (walks_vacate _) (walks_pure _)

theorem walks_dropAll (strict : Bool) : D.Walks c (dropAll strict) := by
  refine walks_get (walks_seq (walks_forIn (fun occupied _ _ => ?_) _) (walks_pure _))
  refine walks_valueOf fun _ => walks_ite (fun _ => ?_) fun _ => ?_
  · exact walks_throw_then _
  · exact walks_seq (walks_discard (walks_unbindRegister _)) (walks_pure _)

theorem walks_holderOf (bits : Word) (occupied : List (Register × ValueId)) :
    D.Walks c (holderOf bits occupied) := by
  induction occupied with
  | nil => exact walks_pure _
  | cons first rest ih => exact walks_valueOf fun _ => walks_ite (fun _ => walks_pure _) fun _ => ih

theorem walks_loadConstant (dst : Register) (bits : Word) : D.Walks c (loadConstant dst bits) := by
  refine walks_get (walks_seq (walks_holderOf _ _) ?_)
  intro holder c1
  cases holder with
  | none => exact walks_quiet rfl
  | some holder =>
    exact walks_seq (walks_touch _) (walks_ite (fun _ => walks_quiet rfl) fun _ => walks_pure _)

theorem stack_of_back_loadAddress (run : Runs (loadAddress dst pos) c u c')
    (last : c'.code.back? = some (.leaStack r slot)) : pos = .stack slot := by
  cases pos with
  | register q => exact (runs_inconsistent.mp run).elim
  | stack taken =>
    obtain rfl := runs_emit.mp run
    simp only [Context.pushed, Array.back?_push, Option.some.injEq, Instr.leaStack.injEq] at last
    rw [last.2]
  | static offset | constant id =>
    simp only [loadAddress, runs_bind, runs_emit] at run
    obtain ⟨_, _, rfl, rfl⟩ := run
    simp [Context.pushed] at last

theorem ready_copyMem {src : Register} {size : Word}
    (ready : ∀ {slot}, source = .stack slot → D.ready c slot)
    (taken : Runs (loadAddress src source) c u c') (leads : Leads c c') (slot : StackSlot)
    (reads : Instr.Reads c'.code.back? (.copyMem dst src size) slot) : D.ready c' slot :=
  D.ready_mono leads (ready (stack_of_back_loadAddress taken reads.1))

theorem admits_loadValue (held : D.holds c) (run : Runs (loadValue r v) c u c') : D.admits v := by
  obtain ⟨value, found, run⟩ := runs_valueOf_bind.mp run
  cases constant : value.constant? with
  | some bits =>
    refine D.admits_known held found (.inr (.inl (by simp [Value.isConstant, constant]))) ?_
    cases kind : value.kind <;> simp [Value.constant?, kind] at constant
    simp [Value.isNamed, Value.named?, kind]
  | none =>
    cases pos : value.position with
    | none => simp [constant, pos] at run
    | some place =>
      refine D.admits_known held found (.inl (by simp [pos])) fun _ => ?_
      cases place with
      | register q => exact .inr (by simp [Value.register?, pos, Position.register?])
      | _ =>
        simp only [constant, pos, runs_ite] at run
        obtain ⟨_, run⟩ | ⟨fits, _⟩ := run
        · simp at run
        · exact .inl (by simpa using fits)

theorem walks_rehome (found : c.values.get? v = some value) (is_home : value.home? = some home)
    (wide : value.ty.fitsRegister = false) : D.Walks c (setPosition v (some home)) := by
  intro u c' held run
  obtain ⟨_, rfl⟩ := runs_setPosition.mp run
  exact ⟨D.rehome held found is_home wide, .modify _ _ fun _ => ⟨rfl, rfl, id, id⟩, rfl⟩

def course (D : Discipline) : Course where
  goes _ c _ x := D.Walks c x
  later := Leads
  sees _ _ _ := True
  ready := D.ready
  isVariable _ _ := True
  isWide c v := ∃ value, c.values.get? v = some value ∧ value.ty.fitsRegister = false
  admits := D.admits
  places := False
  writes _ := True
  refuses _ := True
  writes_plain _ := trivial
  ready_later := D.ready_mono
  isVariable_later _ _ := trivial
  isWide_later leads := by
    rintro ⟨value, found, wide⟩
    obtain ⟨later, found', ages⟩ := leads.values found
    exact ⟨later, found', ages.ty ▸ wide⟩
  goes_pure := walks_pure
  goes_stop _ := walks_throw _
  goes_refuse _ := walks_throw _
  goes_bind first rest := walks_bind first fun _ _ leads => rest leads
  goes_perm walks _ := walks
  goes_holding inner := walks_holding (inner (.withLock _ _ _))
  goes_valueOf rest := walks_of_holds fun held => walks_valueOf fun found => rest (.refl _)
    { found
      sees := trivial
      ready := D.ready_position held found
      isVariable := fun _ => trivial
      isWide := fun wide => ⟨_, found, wide⟩
      admits := fun named fits => D.admits_known held found (.inr (.inr named)) fun _ => .inl fits }
  goes_overOccupied round rest := walks_get (walks_seq (walks_forIn (fun _ _ _ => round) _) rest)
  goes_emit _ := walks_emit
  goes_copyMem ready := walks_bind (walks_loadAddress _ _) fun _ taken leads =>
    walks_emit rfl (ready_copyMem ready taken leads)
  goes_loadAddress := walks_loadAddress
  goes_loadConstant := walks_loadConstant
  goes_touch := walks_touch
  goes_touchAndMark v := walks_seq (walks_touch v) (walks_markLocation v)
  goes_consume := walks_consume
  goes_setDirty := walks_setDirty
  goes_escape := walks_escape
  goes_bindRegister _ _ _ admitted := walks_bindRegister admitted
  goes_loadAndBind _ loaded rest := walks_bind loaded fun held run _ =>
    walks_seq (walks_bindRegister (admits_loadValue held run)) rest
  goes_giveAway _ _ _ rest := walks_bind (walks_discard (walks_consume _)) fun _ _ first =>
    walks_bind (walks_discard (walks_unbindRegister _)) fun _ _ second => rest (first.trans second)
  goes_retake _ _ _ rest :=
    walks_seq (walks_setDirty _ _) (walks_seq (walks_discard (walks_unbindRegister _)) rest)
  goes_homeOf rest := walks_of_holds fun held => walks_bind (walks_homeOf _) fun _ taken leads => by
    obtain ⟨_, found, is_home⟩ := home?_of_homeOf taken
    exact rest leads fun is_slot => D.ready_home (walks_homeOf _ _ _ held taken).1 found
      (is_slot ▸ is_home)
  goes_rehome := by
    rintro α m c u u' v x y next ⟨old, found, wide⟩ first second rest
    refine walks_bind (walks_homeOf v) fun {home c1} _ taken before => ?_
    obtain ⟨homed, found1, is_home⟩ := home?_of_homeOf taken
    refine walks_bind first fun _ _ leads => walks_bind second fun _ _ leads' => ?_
    obtain ⟨later, found2, ages⟩ := (leads.trans leads').values found1
    have still_wide : later.ty.fitsRegister = false := by
      obtain ⟨_, same, ages1⟩ := before.values found
      obtain rfl := Option.mem_unique found1 same
      rw [ages.ty, ages1.ty, wide]
    exact walks_seq (walks_rehome found2 (ages.home is_home) still_wide) rest
  goes_place := False.elim
  goes_allocateSlot := walks_allocateSlot
  goes_obtainRegister := walks_obtainRegister
  goes_store := walks_store
  goes_spill found unnamed pos := walks_spill found unnamed (.inr pos)
  goes_flush := walks_flush
  goes_flushAll := walks_flushAll
  goes_releaseEscaped := walks_releaseEscaped
  goes_vacateAll := walks_vacateAll
  goes_displace := walks_displace
  goes_dropReferenced := walks_dropAll true
  goes_dropLast := walks_dropAll false
  goes_emptied called rest := walks_seq walks_vacateAll
    (walks_seq (called (m := .parting)) (walks_seq (walks_dropAll false) rest))
  goes_addCall := walks_record _
  goes_addOperation _ := walks_record _
  goes_comment := walks_comment
  goes_setLocation := walks_setLocation

theorem fits_course (v : ValueId) (ty : Ty) : D.course.Fits v ty :=
  D.course.fits_of_refuses (fun _ => trivial) v ty

theorem walks_canonicalize (r : Register) (ty : Ty) : D.Walks c (canonicalize r ty) :=
  D.course.goes_canonicalize (m := .parting) r ty

theorem walks_loadValue (dst : Register) (v : ValueId) : D.Walks c (loadValue dst v) :=
  D.course.goes_loadValue (m := .parting) dst v

theorem walks_useInRegister (v : ValueId) : D.Walks c (useInRegister v) :=
  D.course.goes_useInRegister (m := .parting) (by decide) v

theorem walks_copyToRegister (v : ValueId) : D.Walks c (copyToRegister v) :=
  D.course.goes_copyToRegister (m := .parting) v

theorem walks_takeRegister (v : ValueId) : D.Walks c (takeRegister v) :=
  D.course.goes_takeRegister (m := .parting) v

theorem walks_settle (v : ValueId) : D.Walks c (settle v) :=
  D.course.goes_settle (m := .parting) v

theorem walks_targetRegister (target : Position) (bank : Bank) :
    D.Walks c (targetRegister target bank) :=
  D.course.goes_targetRegister (m := .parting) target bank

theorem walks_copyConverted (v : ValueId) (target : Position) (ty : Ty) :
    D.Walks c (copyConverted v target ty) :=
  D.course.goes_copyConverted (m := .parting) (D.fits_course v ty) target

theorem walks_markDirty (v : ValueId) : D.Walks c (markDirty v) :=
  D.course.goes_markDirty (m := .parting) v

theorem walks_resultRegister (lhs : ValueId) (inPlace : Bool) :
    D.Walks c (resultRegister lhs inPlace) :=
  D.course.goes_resultRegister (m := .parting) (by decide) lhs inPlace

theorem walks_finishResult (admitted : inPlace = false → D.admits result) (r : Register)
    (lhs : ValueId) : D.Walks c (finishResult r lhs result inPlace) :=
  D.course.goes_finishResult (m := .parting) (by decide) admitted r lhs

theorem walks_copyWords (ptr chunk : Register) (slot : StackSlot) (count done : Nat) :
    D.Walks c (copyWords ptr chunk slot count done) :=
  D.course.goes_copyWords (m := .parting) ptr chunk slot count done

theorem filled_copyWords {ptr chunk : Register} {count : Nat} (held : D.holds c)
    (some_words : 0 < count) (run : Runs (copyWords ptr chunk slot count 0) c u c') :
    D.filled c' slot := by
  obtain ⟨count, rfl⟩ := Nat.exists_eq_succ_of_ne_zero some_words.ne'
  simp only [copyWords, Nat.lt_irrefl, ↓reduceIte, runs_bind, runs_emit, Nat.zero_mul, Nat.zero_add]
    at run
  obtain ⟨_, _, rfl, _, _, rfl, rest⟩ := run
  have held1 : D.holds (c.pushed (.loadPtr chunk ptr 8)) := D.emit held rfl fun _ => False.elim
  have held2 : D.holds ((c.pushed (.loadPtr chunk ptr 8)).pushed (.storeStack chunk slot 8)) :=
    D.emit held1 rfl fun _ => False.elim
  obtain ⟨_, leads, _⟩ := walks_copyWords _ _ _ _ _ _ _ held2 rest
  exact D.filled_mono leads (D.filled_store held1)

theorem words_pos {size : Nat} (some_bytes : size ≠ 0) : 0 < alignUp size wordSize / wordSize := by
  have : size ≤ alignUp size wordSize := le_alignUp size (by simp [wordSize])
  simp only [alignUp, wordSize] at this ⊢
  omega

theorem walks_lowerDereference (reserving : D.Reserving) (admitted : D.admits result)
    (expected : ∀ {value}, c.values.get? result = some value → reserving.expects value)
    (pointer : ValueId) : D.Walks c (lowerDereference pointer result) := by
  refine walks_valueOf fun {value} found => walks_ite (fun _ => ?_) fun _ => ?_
  · refine walks_seq (walks_useInRegister _) (walks_holding (walks_seq (walks_obtainRegister _) ?_))
    exact walks_seq (walks_quiet rfl)
      (walks_seq (walks_canonicalize _ _) (walks_bindRegister admitted))
  -- The slot is taken first and belongs to the result only at the end.
  intro u c' held run
  obtain ⟨slot, c1, allocated, run⟩ := runs_bind.mp run
  have hands := runs_allocateSlot allocated
  have first := Leads.hands hands fun _ => ⟨slot, rfl⟩
  have kept := reserving.reserve (reserving.wait held expected) hands
  have copied : (reserving.reserved slot result).Crosses D c1 (do
      let ptr ← takeRegister pointer
      holding ptr do
        let chunk ← obtainRegister .int
        copyWords ptr chunk slot (alignUp value.ty.size wordSize / wordSize) 0
        setPosition result (some (.stack slot))) := by
    refine crosses_bind (walks_takeRegister _) fun {ptr c2} _ _ second => crosses_holding ?_
    refine crosses_bind (walks_obtainRegister _) fun _ _ third => ?_
    refine crosses_bind (walks_copyWords _ _ _ _ _) fun held copied fourth => ?_
    obtain ⟨later, found1, ages⟩ := (first.trans <| second.trans <|
      (Leads.withLock c2 ptr true).trans <| third.trans fourth).values found
    refine crosses_place reserving admitted fun found' => ?_
    rw [Option.mem_unique found' found1, ages.ty]
    by_cases size : value.ty.size = 0
    · exact .inr size
    · exact .inl (filled_copyWords held (words_pos size) copied)
  obtain ⟨held', leads, locked⟩ := copied _ _ kept run
  exact ⟨held', first.trans leads, locked.trans (locked_hands hands)⟩

theorem walks_placeArguments {next : Gen α} (walks_next : ∀ {c}, D.Walks c next)
    (args : List (ValueId × ArgumentPlace × Ty)) : D.Walks c (placeArguments next args) :=
  D.course.goes_placeArguments (m := .parting) (u := []) walks_next fun _ _ _ _ => D.fits_course _ _

theorem walks_reserveBuffer (sig : Signature) (layout : CallLayout) :
    D.Walks c (reserveBuffer sig layout) :=
  D.course.goes_reserveBuffer (m := .parting) sig layout

theorem walks_emitCall (start : Option LabelId) (callee : Callee) :
    D.Walks c (emitCall start callee) := by
  refine D.course.goes_emitCall (m := .parting) ?_
  cases callee with
  | direct function => exact fun _ _ => trivial
  | indirect pointer => exact fun _ => trivial

theorem walks_loadArguments {next : List (Register × Word) → Gen α}
    (walks_next : ∀ {c} loaded, D.Walks c (next loaded)) (args : List (ValueId × Ty))
    (loaded : List (Register × Word)) : D.Walks c (loadArguments next args loaded) :=
  D.course.goes_loadArguments (m := .parting) (walks_next _) (fun _ _ _ => D.fits_course _ _) loaded

theorem walks_emitExternalCall (handle : Word) (floatResult : Bool) (dst : Register)
    (loaded : List (Register × Word)) :
    D.Walks c (emitExternalCall handle floatResult dst loaded) :=
  D.course.goes_emitExternalCall (m := .parting) (fun _ => trivial)
    (fun _ => trivial) fun _ => trivial

theorem walks_retireOccupant (v : ValueId) : D.Walks c (retireOccupant v) :=
  D.course.goes_retireOccupant (m := .parting) v

theorem walks_retireRegisters : D.Walks c retireRegisters := D.course.goes_retireRegisters

theorem walks_bindParameters {placed : List (ValueId × ArgumentPlace)}
    (admitted : ∀ {v r}, (v, .register r) ∈ placed → D.admits v) :
    D.Walks c (bindParameters placed) :=
  D.course.goes_bindParameters (m := .parting) (by decide) admitted

theorem reserveBuffer_reserves (reserving : D.Reserving) {layout : CallLayout}
    (held : (reserving.waiting v).holds c)
    (run : Runs (reserveBuffer sig layout) c (some slot) c') :
    (reserving.reserved slot v).holds c' ∧ (reserving.reserved slot v).filled c' slot
      ∧ Leads c c' ∧ c'.registers.locked = c.registers.locked := by
  have walked := walks_reserveBuffer sig layout _ _ held run
  unfold reserveBuffer at run
  split at run
  · simp only [runs_bind, runs_emit, runs_pure, Option.some.injEq] at run
    obtain ⟨_, c1, allocated, r, c2, obtained, _, _, rfl, _, _, rfl, rfl, rfl⟩ := run
    have held1 := reserving.reserve held (runs_allocateSlot allocated)
    obtain ⟨held2, _, _⟩ := walks_obtainRegister _ _ _ held1 obtained
    have held3 : (reserving.reserved slot v).holds (c2.pushed (.leaStack r slot)) :=
      Discipline.emit _ held2 rfl fun _ => False.elim
    exact ⟨Discipline.emit _ held3 rfl fun _ => False.elim,
      Discipline.filled_buffer _ held3 (by simp [Context.pushed]), walked.2⟩
  · simp at run

theorem crosses_memoryCall (reserving : D.Reserving) {placed : List (ValueId × ArgumentPlace × Ty)}
    (admitted : D.admits v) (memory : (CallLayout.ofSignature sig).result = .memory) :
    (reserving.waiting v).Crosses D c (do
      vacateAll
      let buffer ← reserveBuffer sig (.ofSignature sig)
      placeArguments (emitCall start callee) placed
      dropAll false
      bindResult (.ofSignature sig) buffer v) := by
  refine crosses_bind walks_vacateAll fun {_ c1} _ _ _ => ?_
  intro u c' held run
  obtain ⟨buffer, c2, reserved, run⟩ := runs_bind.mp run
  cases buffer with
  | none => simp [bindResult, memory] at run
  | some slot =>
    obtain ⟨held2, filled, grown, locked⟩ := reserveBuffer_reserves reserving held reserved
    have called : (reserving.reserved slot v).Crosses D c2 (do
        placeArguments (emitCall start callee) placed
        dropAll false
        bindResult (.ofSignature sig) (some slot) v) := by
      refine crosses_bind (walks_placeArguments (walks_emitCall _ _) _) fun _ _ first => ?_
      refine crosses_bind (walks_dropAll _) fun _ _ second => ?_
      simp only [bindResult, memory]
      exact crosses_place reserving admitted
        fun _ => .inl (Discipline.filled_mono _ (first.trans second) filled)
    obtain ⟨held', leads, locked'⟩ := called _ _ held2 run
    exact ⟨held', grown.trans leads, locked'.trans locked⟩

theorem walks_lowerInternalCall (reserving : D.Reserving) {result : Option ValueId}
    (admitted : ∀ {v}, result = some v → D.admits v)
    (expected : ∀ {v value}, result = some v → c.values.get? v = some value →
      reserving.expects value) :
    D.Walks c (lowerInternalCall sig start callee args result) := by
  refine walks_ite (fun _ => walks_throw_then _) fun _ => ?_
  have called {f : Option StackSlot → Gen Unit} (next : ∀ {c} buffer, D.Walks c (f buffer)) :
      D.Walks c (do
        vacateAll
        let buffer ← reserveBuffer sig (.ofSignature sig)
        placeArguments (emitCall start callee)
          (args.zip ((CallLayout.ofSignature sig).arguments.zip sig.params)).reverse
        dropAll false
        f buffer) :=
    walks_seq walks_vacateAll <| walks_seq (walks_reserveBuffer _ _) <|
      walks_seq (walks_placeArguments (walks_emitCall _ _) _) <| walks_seq
        (walks_dropAll _) (next _)
  cases result with
  | none => exact called fun _ => walks_pure _
  | some v =>
    by_cases memory : (CallLayout.ofSignature sig).result = .memory
    · intro u c' held run
      exact crosses_memoryCall reserving (admitted rfl) memory u c'
        (reserving.wait held (expected rfl)) run
    · refine called fun buffer => ?_
      dsimp only
      unfold bindResult
      split
      · exact walks_bindRegister (admitted rfl)
      · next is_memory => exact (memory is_memory).elim
      · exact walks_inconsistent _

theorem runs_findFunction {function : FunctionId}
    (run : Runs (findFunction functions function) c decl c') :
    functions[function.index]? = some decl ∧ c' = c := by
  unfold findFunction at run
  split at run
  · next found =>
    obtain ⟨rfl, rfl⟩ := runs_pure.mp run
    exact ⟨found, rfl⟩
  · simp at run

theorem walks_lowerCall (reserving : D.Reserving) {result : Option ValueId}
    (admitted : ∀ {v}, result = some v → D.admits v)
    (expected : ∀ {v value}, result = some v → c.values.get? v = some value →
      reserving.expects value) :
    D.Walks c (lowerCall functions callee args result) := by
  cases callee with
  | direct function =>
    refine D.course.goes_findFunction (m := .parting) (u := []) fun {decl} _ => ?_
    cases decl.linkage with
    | external handle =>
      exact D.course.goes_lowerExternalCall (m := .parting) (by decide)
        (fun _ _ _ => walks_emitExternalCall _ _ _ _) (fun _ _ _ => D.fits_course _ _) admitted
    | internal => exact walks_lowerInternalCall reserving admitted expected
  | indirect pointer =>
    refine walks_valueOf fun {value} _ => ?_
    dsimp only
    cases value.ty.signature? with
    | some sig =>
      exact walks_ite (fun _ => walks_throw_then _) fun _ =>
        walks_lowerInternalCall reserving admitted expected
    | none => exact walks_inconsistent _

theorem walks_lowerOperation (reserving : D.Reserving) {operation : Operation}
    (admitted : ∀ {v}, operation.result? = some v → D.admits v)
    (expected : ∀ {v value}, operation.slotResult? = some v → c.values.get? v = some value →
      reserving.expects value) :
    D.Walks c (lowerOperation functions decl isLast operation) := by
  have allowed : D.course.Allows functions decl isLast operation :=
    D.course.allows_of_free (fun _ => trivial) (fun _ => trivial) operation
  have others := D.course.goes_lowerOperation (c := c) allowed admitted
  cases operation with
  | call callee args result => exact walks_lowerCall reserving admitted expected
  | dereference pointer result =>
    exact walks_lowerDereference reserving (admitted rfl) (expected rfl) _
  | _ => exact others (by simp [Operation.slotResult?])

theorem walks_checkConsistency : D.Walks c checkConsistency := by
  refine walks_get ?_
  split
  · exact walks_pure _
  · exact walks_throw _

theorem walks_lowerUnchecked (reserving : D.Reserving)
    (admitted : ∀ {v}, item.operation.result? = some v → D.admits v)
    (expected : ∀ {v value}, item.operation.slotResult? = some v → c.values.get? v = some value →
      reserving.expects value) :
    D.Walks c (lowerUnchecked functions decl item isLast) := by
  have rest {c1 : Context} (same : c1.values = c.values) : D.Walks c1 (do
      setLocation item.loc
      lowerOperation functions decl isLast item.operation
      record (·.addOperation item.operation.kind)
      releaseEscaped) := by
    refine walks_bind (walks_setLocation _) fun _ located _ => ?_
    obtain rfl := runs_setLocation.mp located
    refine walks_seq (walks_lowerOperation reserving admitted fun is_result found => ?_) <|
      walks_seq (walks_record _) walks_releaseEscaped
    exact expected is_result (same ▸ found)
  refine walks_ite (fun _ => walks_bind (walks_comment _) fun _ commented _ => ?_) fun _ => rest rfl
  obtain ⟨_, _, rfl⟩ := runs_comment commented
  exact rest rfl

theorem walks_lowerItem (reserving : D.Reserving)
    (admitted : ∀ {v}, item.operation.result? = some v → D.admits v)
    (expected : ∀ {v value}, item.operation.slotResult? = some v → c.values.get? v = some value →
      reserving.expects value) :
    D.Walks c (lowerItem functions decl item isLast) := by
  rw [lowerItem_eq]
  exact walks_seq (walks_lowerUnchecked reserving admitted expected)
    (walks_get (walks_ite (fun _ => walks_checkConsistency) fun _ => walks_pure _))

theorem walks_lowerBody (reserving : D.Reserving) {items : List BodyItem}
    (admitted : ∀ item ∈ items, ∀ {v}, item.operation.result? = some v → D.admits v)
    (expected : ∀ value, reserving.expects value) : D.Walks c (lowerBody functions decl items) := by
  induction items generalizing c with
  | nil => exact walks_pure _
  | cons item rest ih =>
    rw [List.forall_mem_cons] at admitted
    exact walks_seq (walks_lowerItem reserving admitted.1 fun _ _ => expected _) (ih admitted.2)

theorem walks_lowerPrologue {frame : FrameId}
    (admitted : ∀ {v r}, (v, .register r) ∈ decl.params.zip decl.layout.arguments → D.admits v) :
    D.Walks c (lowerPrologue decl frame) :=
  walks_seq (walks_quiet rfl) <| walks_seq (walks_comment _) <| walks_seq (walks_quiet rfl)
    (walks_bindParameters admitted)

theorem walks_lowerEpilogue (decl : Declaration) (frame : FrameId) :
    D.Walks c (lowerEpilogue decl frame) :=
  walks_seq (walks_quiet rfl) (walks_seq (walks_quiet rfl) (walks_quiet rfl))

theorem walks_lowerEntry (functions : Array Declaration) (entry : Option FunctionId) :
    D.Walks c (lowerEntry functions entry) := by
  unfold lowerEntry
  split
  · exact walks_pure _
  · split
    · exact walks_inconsistent _
    · exact walks_seq (walks_quiet rfl) (walks_seq (walks_quiet rfl) (walks_quiet rfl))

end Discipline

end RegisterBackend
