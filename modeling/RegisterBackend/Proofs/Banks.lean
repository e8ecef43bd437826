import RegisterBackend.Proofs.Writing

/-!
Every operation keeps to what may be written, if its operands have the types that its checks ask
for.
-/
namespace RegisterBackend

open Gen Signature CallLayout Gives List RegisterFile Convention

variable {decl : Declaration} {dst r : Register} {args : List ValueId} {callee : Callee}
  {cond lhs pointer result rhs target v value : ValueId}
  {difference inPlace isLast signed : Bool} {handle : Word} {loaded : List (Register × Word)}
  {op : BinaryOp} {sig : Signature} {slot : StackSlot} {ty source targetTy : Ty}
  {start : Option LabelId}

variable {α : Type} {S : Scope} {c c' : Context} {into : Option Register} {i : Instr}
  {R : α → Context → Prop}

theorem Register.Suits.isInt (suits : r.Suits ty) (int : ty.bank = .int) : r.IsInt :=
  ⟨suits.bank.trans int, suits.range⟩

theorem Register.Suits.isFloat (suits : r.Suits ty) (float : ty.bank = .float) : r.IsFloat :=
  ⟨suits.bank.trans float, suits.range⟩

theorem Register.IsInt.owes {P : Prop} (int : r.IsInt) (float : r.bank = .float) : P :=
  (int.ne float rfl).elim

theorem Scope.Tracks.isSingle (tracks : S.Tracks v) (varies : S.constants v = none) :
    S.precise ∧ (S.types v).isSingle = true := by
  obtain ⟨precise, single | ⟨_, is_constant, _⟩⟩ := tracks
  · exact ⟨precise, single⟩
  · cases varies.symm.trans is_constant

theorem Context.Sorted.constants_of_named {value : Value} {named : Named} (sorted : c.Sorted S into)
    (found : c.values.get? v = some value) (is_named : value.named? = some named) :
    S.constants v = none := by
  rw [← (sorted.banked.typed found).2]
  cases kind : value.kind <;> simp_all [Value.named?, Value.constant?]

theorem writes_bindInt (int : r.IsInt) (v : ValueId) :
    Writes S .working c (bindRegister r v) := writes_bindRegister int.owes

theorem writes_plain (code : i.isRemark = false) (fine : i.Fine S c)
    (sound : i.Sound S.toFlow c.code.toList)
    (conveys : ∀ {r}, r.bank = .float → c.Knows S.toFlow r →
      c.Gains S i r) : Writes S .working c (emit i) :=
  of_quiet (writes_silent code fine sound conveys)

theorem writes_adopt {sourceTy : Ty} (suits : r.Suits targetTy)
    (single : r.bank = .float → S.Tracks target → c.Knows S.toFlow r) :
    Writes S .working c (adopt target value r targetTy sourceTy) := by
  have bound {c : Context} (single : r.bank = .float → S.Tracks target → c.Knows S.toFlow r) :
      Writes S .working c (do bindRegister r target; markDirty target) :=
    gives_seq (writes_bindRegister single) (of_quiet (writes_markDirty target))
  have rest {c : Context} (single : r.bank = .float → S.Tracks target → c.Knows S.toFlow r) :
      Writes S .working c (do
        if targetTy.isBool && !sourceTy.isBool then
          emit (.cmpImm r 0 .ne)
        else if sourceTy.unqualified ≠ targetTy.unqualified then
          canonicalize r targetTy
        bindRegister r target
        markDirty target) := by
    refine gives_ite (fun to_bool => ?_) fun _ => gives_ite (fun _ => ?_) fun _ => bound single
    · rw [Bool.and_eq_true] at to_bool
      have int := suits.isInt (Ty.bank_of_isBool to_bool.1)
      exact gives_seq (writes_plain rfl int trivial fun _ => id) (bound int.owes)
    · refine gives_quietly (writes_canonicalize suits.range targetTy) fun wrote _ => bound ?_
      exact fun float tracks => wrote.spares float trivial (single float tracks)
  refine gives_quietly (writes_discard (writes_consume value)) fun first _ => ?_
  refine gives_quietly (writes_discard (writes_unbindRegister r)) fun second _ => ?_
  have single2 (float : r.bank = .float) (tracks : S.Tracks target) :=
    second.spares float trivial (first.spares float trivial (single float tracks))
  refine gives_valueOf fun {old} _ => ?_
  cases old.register? with
  | none => exact rest single2
  | some other =>
    refine gives_quietly (writes_setDirty target false) fun third _ => ?_
    refine gives_quietly (writes_discard (writes_unbindRegister other)) fun fourth _ => rest ?_
    exact fun float tracks =>
      fourth.spares float trivial (third.spares float trivial (single2 float tracks))

theorem writes_assignInRegister (is_type : S.types target = targetTy)
    (varies : S.constants target = none) (suits : (S.types value).Suits targetTy) :
    Writes S .working c (assignInRegister target value targetTy) := by
  refine gives_seq (writes_holdingRegisterOf fun {c1} _ => ?_) (of_quiet (writes_markDirty target))
  refine gives_of fun sorted => gives_valueOf fun {old} found => ?_
  have tracked (tracks : S.Tracks target) : S.precise ∧ targetTy.isSingle = true :=
    is_type ▸ tracks.isSingle varies
  cases located : old.register? with
  | some r =>
    obtain ⟨here, bank, range⟩ := sorted.register_of found (Value.position_of_register? located)
    have bank' : r.bank = targetTy.bank := by rw [bank, (sorted.banked.typed found).1, is_type]
    refine gives_pure_bind r ?_
    have copied := gives_copyConverted bank' range (sorted.withLock r true) suits
    refine writes_holding (Gives.loaded r (Q := fun _ c' => r.bank = .float →
      S.precise ∧ targetTy.isSingle = true → c'.Knows S.toFlow r) ?_ ?_).writes
    · refine gives_bind copied fun _ known => ?_
      exact gives_keeping
        (gives_seq (writes_discard (writes_consume value)) (gives_pure _ trivial)) known
    · intro _ c' v known float _ occupied tracks
      obtain rfl : v = target := by simpa [Context.withLock, here, eq_comm] using occupied
      exact known float (tracked tracks)
  | none =>
    refine gives_quietly (gives_obtainRegister _) fun {r c2} wrote offers => ?_
    refine gives_of fun sorted2 => writes_holding ?_
    have copied := gives_copyConverted offers.bank offers.range (sorted2.withLock r true) suits
    refine gives_bind (copied.loaded r fun _ _ _ occupied => ?_) fun _ known => ?_
    · simp [Context.withLock, offers.empty] at occupied
    · refine gives_quietly (writes_discard (writes_consume value)) fun last _ => ?_
      refine writes_bindRegister fun float tracks => ?_
      exact last.spares float trivial (known float (tracked tracks))

theorem writes_assignInMemory {old : Value} (found : c.values.get? target = some old)
    (wide : old.ty.fitsRegister = false) (suits : (S.types value).Suits targetTy) :
    Writes S .working c (assignInMemory target value targetTy) := by
  have home : Gives S (.quiet Mode.working.into) c (homeOf target) fun home c' =>
      (home.Known c' ∧ home.isRegister = false)
        ∧ ∃ value, c'.values.get? target = some value ∧ value.home? = some home :=
    (gives_homeOf target).also home?_of_homeOf
  refine gives_quietly home fun {home c1} first is_home => ?_
  obtain ⟨⟨known, memory⟩, homed, found1, at_home⟩ := is_home
  refine gives_calmly (writes_copyConverted known memory suits) fun second _ => ?_
  refine gives_quietly (writes_discard (writes_consume value)) fun third _ => ?_
  obtain ⟨later, found3, ages⟩ := (second.leads.trans third.leads).values found1
  have still_wide : later.ty.fitsRegister = false := by
    obtain ⟨_, same, ages1⟩ := first.leads.values found
    obtain rfl := Option.mem_unique found1 same
    rw [ages.ty, ages1.ty, wide]
  refine gives_seq (of_quiet (writes_rehome found3 (ages.home at_home) still_wide)) ?_
  exact of_quiet (gives_seq (writes_touch target) (writes_markLocation target))

theorem writes_lowerAssign (suits : (S.types value).Suits (S.types target)) :
    Writes S .working c (lowerAssign target value) := by
  refine gives_of fun sorted => gives_valueOf fun {targetValue} found => ?_
  cases is_named : targetValue.named? with
  | none => exact gives_inconsistent _
  | some named =>
    have varies := sorted.constants_of_named found is_named
    have is_type := (sorted.banked.typed found).1
    rw [← is_type] at suits
    have assigned : Writes S .working c (if targetValue.ty.fitsRegister
        then assignInRegister target value targetValue.ty
        else assignInMemory target value targetValue.ty) :=
      gives_ite (fun _ => writes_assignInRegister is_type.symm varies suits)
        fun wide => writes_assignInMemory found (by simpa using wide) suits
    refine gives_valueOf fun {source} source_found => ?_
    dsimp only
    split
    · next adoptable located =>
      simp only [Bool.and_eq_true, beq_iff_eq] at adoptable
      obtain ⟨here, bank, range⟩ :=
        sorted.register_of source_found (Value.position_of_register? located)
      refine writes_adopt ⟨bank.trans adoptable.1.1.1.2, range⟩ fun float tracks => ?_
      -- The source has the width and the bank of the target.
      obtain ⟨precise, single⟩ := tracks.isSingle varies
      have is_float := Ty.isFloat_of_bank (bank.symm.trans float)
      have four : source.ty.size = 4 := by
        rw [adoptable.1.1.2, is_type]
        exact (Ty.isSingle_iff.mp single).2
      refine sorted.singles float nofun here ⟨precise, .inl ?_⟩
      rw [← (sorted.banked.typed source_found).1]
      exact Ty.isSingle_iff.mpr ⟨is_float, four⟩
    · exact assigned

theorem gives_resultRegister (lhs : ValueId) (inPlace : Bool) :
    Gives S .working c (resultRegister lhs inPlace) fun r c' => r.Suits (S.types lhs)
      ∧ ∀ {w}, c'.registers.occupant? r = some w → inPlace = true ∧ w = lhs := by
  refine gives_ite (fun placed => ?_) fun _ => ?_
  · exact (gives_variableRegister lhs).imp fun _ _ taken =>
      ⟨taken.1, fun occupied => ⟨placed, taken.2.1 occupied⟩⟩
  · refine of_calm
      ((gives_takeRegister lhs).imp fun _ _ copies => ⟨copies.toSuits, fun occupied => ?_⟩)
    cases copies.empty.symm.trans occupied

theorem writes_finishResult
    (single : inPlace = false → r.bank = .float → S.Tracks result → c.Knows S.toFlow r) :
    Writes S .working c (finishResult r lhs result inPlace) :=
  gives_ite (fun _ => of_quiet (writes_markDirty lhs))
    fun fresh => writes_bindRegister (single (by simpa using fresh))

theorem writes_lowerFloatBinary (left : (S.types lhs).bank = .float)
    (right : (S.types rhs).bank = .float) (varies : S.constants result = none)
    (same : inPlace = true → result = lhs) :
    Writes S .working c (lowerFloatBinary op lhs rhs result inPlace) := by
  unfold lowerFloatBinary
  cases op.floatOp? with
  | none => exact gives_inconsistent _
  | some floatOp =>
    refine gives_bind (gives_resultRegister lhs inPlace) fun {dst c1} _ taken => ?_
    have float := taken.1.isFloat left
    refine gives_bind (Q := fun _ c' => S.Tracks result → c'.Knows S.toFlow dst)
      ?_ fun _ known => ?_
    · refine gives_holding ?_ fun _ _ known => known
      refine gives_bind (gives_useInRegister rhs) fun {src c2} _ used => ?_
      refine Gives.loaded dst ?_ fun known _ _ occupied tracks => ?_
      · refine gives_bind (gives_into rfl ⟨float, used.1.isFloat right⟩ trivial fun other => ?_)
          fun _ _ => ?_
        · exact fun known => ⟨other, known⟩
        · refine gives_of fun sorted => gives_valueOf fun {made} found => of_quiet ?_
          refine (gives_narrowFloat float.2 made.ty).imp fun _ _ narrowed tracks =>
            narrowed float.1 ?_
          rw [(sorted.banked.typed found).1]
          exact (tracks.isSingle varies).2
      · have locked : (c1.withLock dst true).registers.isLocked dst = true :=
          isLocked_lock_self _ float.2
        obtain ⟨placed, rfl⟩ := taken.2 (by simpa [Context.withLock] using used.2 locked occupied)
        exact known (same placed ▸ tracks)
    · exact writes_finishResult fun _ _ tracks => known tracks

theorem writes_applyRight {op : AluOp} {scale : Nat} (int : dst.IsInt)
    (right : (S.types rhs).bank = .int) :
    Writes S .working c (applyRight op dst rhs scale difference) := by
  refine gives_valueOf fun {value} _ => ?_
  cases value.constant? with
  | some bits =>
    refine gives_quietly (writes_discard (writes_consume rhs)) fun _ _ => ?_
    exact writes_plain rfl ⟨int, trivial⟩ trivial fun _ => id
  | none =>
    refine gives_ite (fun _ => ?_) fun _ => ?_
    · refine gives_calmly (gives_takeRegister rhs) fun _ copies => ?_
      have int' := copies.isInt right
      refine gives_seq (writes_plain rfl ⟨int', trivial⟩ trivial fun _ => id) ?_
      exact writes_plain rfl ⟨int, int'⟩ trivial fun _ => id
    · refine gives_bind (gives_useInRegister rhs) fun _ used => ?_
      exact writes_plain rfl ⟨int, used.1.isInt right⟩ trivial fun _ => id

theorem gives_measureStep {m : Mode} {f : Nat → Gen α} (rest : ∀ n, Gives S m c (f n) R) :
    Gives S m c (measureStep ty >>= f) R := by
  rw [measureStep]
  split
  · rw [pure_bind]
    exact rest _
  · exact gives_throw_then _

theorem writes_lowerOrdered {resultTy : Ty} (left : (S.types lhs).bank = .int)
    (right : (S.types rhs).bank = .int) :
    Writes S .working c (lowerOrdered op lhs rhs result source targetTy resultTy inPlace) := by
  refine gives_measureStep fun _ => gives_valueOf fun _ => gives_valueOf fun _ => ?_
  have computed {c : Context} {lhs rhs : ValueId} {alu : AluOp} {scale : Nat}
      {difference : Bool} {ty : Ty}
      (left : (S.types lhs).bank = .int) (right : (S.types rhs).bank = .int) :
      Writes S .working c (do
        let dst ← resultRegister lhs inPlace
        holding dst do
          applyRight alu dst rhs scale difference
          if difference && 1 < scale then
            emit (.aluImm .divS dst (.value (BitVec.ofNat 64 scale)))
          canonicalize dst ty
        finishResult dst lhs result inPlace) := by
    refine gives_bind (gives_resultRegister lhs inPlace) fun {dst _} _ taken => ?_
    have int := taken.1.isInt left
    refine gives_seq (writes_holding (gives_seq (writes_applyRight int right) ?_))
      (writes_finishResult fun _ => int.owes)
    refine gives_ite (fun _ => ?_) fun _ => of_quiet (writes_canonicalize int.2 ty)
    exact gives_seq (writes_plain rfl ⟨int, trivial⟩ trivial fun _ => id)
      (of_quiet (writes_canonicalize int.2 ty))
  dsimp only
  split
  · exact computed right left
  · exact computed left right

theorem writes_lowerIntBinary (left : (S.types lhs).bank = .int)
    (right : (S.types rhs).bank = .int) :
    Writes S .working c (lowerIntBinary op lhs rhs result inPlace) := by
  refine gives_valueOf fun _ => gives_valueOf fun _ => gives_valueOf fun _ => ?_
  exact gives_ite (fun _ => writes_lowerOrdered right left) fun _ => writes_lowerOrdered left right

theorem writes_value {m : Mode} : Writes S m c (valueOf v) := by
  intro value c' sorted run
  obtain ⟨_, rfl⟩ := runs_valueOf.mp run
  exact ⟨.refl _ _, sorted, trivial⟩

theorem writes_lowerBinary (same_bank : (S.types lhs).bank = (S.types rhs).bank)
    (varies : S.constants result = none) (same : inPlace = true → result = lhs) :
    Writes S .working c (lowerBinary op lhs rhs result inPlace) := by
  refine gives_of fun sorted => gives_valueOf fun {left} found => ?_
  have is_type := (sorted.banked.typed found).1
  refine gives_seq (writes_discard writes_value) (gives_seq (writes_discard writes_value) ?_)
  refine gives_ite (fun float => ?_) fun int => ?_
  · have bank : (S.types lhs).bank = .float := by rw [← is_type, Ty.bank, if_pos float]
    exact writes_lowerFloatBinary bank (same_bank.symm.trans bank) varies same
  · have bank : (S.types lhs).bank = .int := by rw [← is_type, Ty.bank, if_neg int]
    exact writes_lowerIntBinary bank (same_bank.symm.trans bank)

theorem writes_lowerFloatCompare {op : CompareOp} (left : (S.types lhs).bank = .float)
    (right : (S.types rhs).bank = .float) :
    Writes S .working c (lowerFloatCompare op lhs rhs result) := by
  refine gives_bind (gives_useInRegister lhs) fun _ used => writes_holding ?_
  refine gives_bind (gives_useInRegister rhs) fun _ used' => writes_holding ?_
  refine gives_quietly gives_pointer fun _ int => ?_
  refine gives_seq
    (writes_plain rfl ⟨int, used.1.isFloat left, used'.1.isFloat right⟩ trivial fun _ => id) ?_
  exact writes_bindInt int result

theorem writes_lowerIntCompare {op : CompareOp} (left : (S.types lhs).bank = .int)
    (right : (S.types rhs).bank = .int) :
    Writes S .working c (lowerIntCompare op lhs rhs result signed) := by
  refine gives_valueOf fun _ => gives_ite (fun _ => gives_valueOf fun _ => ?_) fun _ => ?_
  all_goals
    refine gives_seq (gives_pure _ trivial) ?_
    intro swap c1
    dsimp only
    -- The operands are compared in the same way whichever is on the left.
    split
  all_goals
    refine gives_calmly (gives_takeRegister _) fun _ copies =>
      writes_holding (gives_valueOf fun {value} _ => ?_)
    have int := copies.isInt (by assumption)
    cases value.constant? with
    | some bits =>
      refine gives_quietly (writes_discard (writes_consume _)) fun _ _ => ?_
      exact gives_seq (writes_plain rfl int trivial fun _ => id) (writes_bindInt int result)
    | none =>
      refine gives_bind (gives_useInRegister _) fun _ used => ?_
      exact gives_seq (writes_plain rfl ⟨int, used.1.isInt (by assumption)⟩ trivial fun _ => id)
        (writes_bindInt int result)

theorem writes_lowerCompare {op : CompareOp} (same_bank : (S.types lhs).bank = (S.types rhs).bank) :
    Writes S .working c (lowerCompare op lhs rhs result) := by
  refine gives_of fun sorted => gives_valueOf fun {left} found => ?_
  have is_type := (sorted.banked.typed found).1
  refine gives_ite (fun float => ?_) fun int => ?_
  · have bank : (S.types lhs).bank = .float := by rw [← is_type, Ty.bank, if_pos float]
    exact writes_lowerFloatCompare bank (same_bank.symm.trans bank)
  · have bank : (S.types lhs).bank = .int := by rw [← is_type, Ty.bank, if_neg int]
    exact writes_lowerIntCompare bank (same_bank.symm.trans bank)

theorem writes_compareWithZero {src : Register} (cond : Cond) (float : src.IsFloat)
    (int : dst.IsInt) : Writes S .working c (compareWithZero src cond dst) := by
  refine gives_quietly (gives_obtainRegister .float) fun {zero c1} first offers =>
    gives_of fun sorted => ?_
  have unlocked := (first.isLocked zero).trans offers.unlocked
  refine gives_calmly ((gives_loadConstant offers.range sorted 0).calmed unlocked offers.empty)
    fun _ _ => ?_
  exact writes_plain rfl ⟨int, float, offers.bank, offers.range⟩ trivial fun _ => id

theorem writes_lowerUnary {op : UnaryOp} {operand : ValueId} (varies : S.constants result = none)
    (bits : op = .bitNot → (S.types operand).bank = .int)
    (negated : op = .neg → (S.types result).isSingle = true → (S.types operand).isSingle = true) :
    Writes S .working c (lowerUnary op operand result) := by
  refine gives_of fun sorted => gives_valueOf fun {value} found => gives_valueOf fun {made} _ => ?_
  have is_type := (sorted.banked.typed found).1
  -- An integer is computed in a register of its own.
  have computed {c : Context} {i : Register → Instr} (int : (S.types operand).bank = .int)
      (step : ∀ {c dst}, dst.IsInt → Writes S .working c (emit (i dst))) :
      Writes S .working c (do
        let dst ← takeRegister operand
        emit (i dst)
        canonicalize dst made.ty
        bindRegister dst result) := by
    refine gives_calmly (gives_takeRegister operand) fun _ copies => ?_
    have is_int := copies.isInt int
    refine gives_seq (step is_int) (gives_seq (of_quiet (writes_canonicalize is_int.2 _)) ?_)
    exact writes_bindInt is_int result
  dsimp only
  split
  · next float =>
    have bank : (S.types operand).bank = .float := by rw [← is_type, Ty.bank, if_pos float]
    refine gives_bind (gives_useInRegister operand) fun _ used => writes_holding ?_
    refine gives_quietly (gives_obtainRegister .float) fun {zero c1} first offers => ?_
    refine gives_of fun sorted1 => writes_holding ?_
    refine gives_bind
      ((gives_loadConstant offers.range (sorted1.withLock zero true) 0).loaded zero ?_)
      fun _ _ => ?_
    · intro _ _ _ _ _ _ occupied
      simp [Context.withLock, offers.empty] at occupied
    refine gives_quietly gives_pointer fun _ int => ?_
    refine gives_seq (writes_plain rfl ⟨int, used.1.isFloat bank, offers.bank, offers.range⟩ trivial
      fun _ => id) (writes_bindInt int result)
  · next float =>
    have bank : (S.types operand).bank
        = .int := by rw [← is_type, Ty.bank, if_neg (by simp [float])]
    refine gives_calmly (gives_takeRegister operand) fun _ copies => ?_
    have int := copies.isInt bank
    exact gives_seq (writes_plain rfl int trivial fun _ => id) (writes_bindInt int result)
  · next float =>
    have bank : (S.types operand).bank = .float := by rw [← is_type, Ty.bank, if_pos float]
    refine gives_calmly (gives_takeRegister operand) fun {dst _} _ copies => ?_
    have is_float := copies.isFloat bank
    refine gives_quietly (writes_silent rfl is_float trivial fun _ => id) fun first _ => ?_
    refine gives_quietly (writes_canonicalize is_float.2 _) fun second _ =>
      writes_bindRegister fun _ tracks => ?_
    obtain ⟨precise, single⟩ := tracks.isSingle varies
    have known := copies.single is_float.1 ⟨precise, .inl (negated rfl single)⟩
    exact second.spares is_float.1 trivial (first.spares is_float.1 trivial known)
  · next float =>
    have bank : (S.types operand).bank
        = .int := by rw [← is_type, Ty.bank, if_neg (by simp [float])]
    exact computed bank fun int => writes_plain rfl int trivial fun _ => id
  · exact computed (bits rfl) fun int => writes_plain rfl int trivial fun _ => id

theorem writes_convertInt {target : Ty} (int : (S.types value).bank = .int) :
    Writes S .working c (convertInt value result source target) := by
  refine gives_calmly (gives_takeRegister value) fun _ copies => ?_
  have is_int := copies.isInt int
  refine gives_ite (fun _ => ?_) fun _ => gives_ite (fun _ => ?_) fun _ =>
    writes_bindInt is_int result
  · exact gives_seq (writes_plain rfl is_int trivial fun _ => id) (writes_bindInt is_int result)
  · exact gives_seq (of_quiet (writes_canonicalize is_int.2 _)) (writes_bindInt is_int result)

theorem writes_convertIntToFloat (int : (S.types value).bank = .int)
    (varies : S.constants result = none) :
    Writes S .working c (convertIntToFloat value result source (S.types result)) := by
  refine gives_bind (gives_useInRegister value) fun _ used => writes_holding ?_
  refine gives_quietly (gives_obtainRegister .float) fun {dst c1} _ offers => ?_
  have float : dst.IsFloat := ⟨offers.bank, offers.range⟩
  refine gives_bind
    (Gives.loaded dst (gives_into rfl ⟨float, used.1.isInt int⟩ trivial fun other known =>
    ⟨other, known⟩) fun _ _ _ occupied => ?_) fun _ _ => ?_
  · cases offers.empty.symm.trans occupied
  · refine gives_quietly (gives_narrowFloat float.2 _) fun _ narrowed => writes_bindRegister
      fun is_float tracks => ?_
    exact narrowed is_float (tracks.isSingle varies).2

theorem writes_convertFloatToInt {target : Ty} (float : (S.types value).bank = .float) :
    Writes S .working c (convertFloatToInt value result target) := by
  refine gives_bind (gives_useInRegister value) fun _ used => writes_holding ?_
  have is_float := used.1.isFloat float
  refine gives_quietly gives_pointer fun _ int => gives_ite (fun _ => ?_) fun _ => ?_
  · exact gives_seq (writes_compareWithZero .ne is_float int) (writes_bindInt int result)
  · refine gives_seq (writes_plain rfl ⟨int, is_float⟩ trivial fun _ => id) ?_
    exact gives_seq (of_quiet (writes_canonicalize int.2 _)) (writes_bindInt int result)

theorem writes_convertFloat (float : (S.types value).isFloat = true)
    (varies : S.constants result = none) :
    Writes S .working c (convertFloat value result (S.types value) (S.types result)) := by
  have bank : (S.types value).bank = .float := by rw [Ty.bank, if_pos float]
  refine gives_calmly (gives_takeRegister value) fun _ copies =>
    gives_ite (fun _ => ?_) fun wide => ?_
  · refine gives_quietly (gives_narrowFloat copies.range _) fun _ narrowed => ?_
    exact writes_bindRegister fun is_float tracks => narrowed is_float (tracks.isSingle varies).2
  · refine writes_bindRegister fun is_float tracks => copies.single is_float ?_
    obtain ⟨precise, single⟩ := tracks.isSingle varies
    have four := (Ty.isSingle_iff.mp single).2
    have size : (S.types value).size = 4 := by
      have := S.widths precise float
      omega
    exact ⟨precise, .inl (Ty.isSingle_iff.mpr ⟨float, size⟩)⟩

theorem writes_lowerConvert (varies : S.constants result = none) :
    Writes S .working c (lowerConvert value result) := by
  refine gives_of fun sorted => gives_valueOf fun {source} found =>
    gives_valueOf fun {target} found' => ?_
  have is_type := (sorted.banked.typed found).1
  have is_type' := (sorted.banked.typed found').1
  refine gives_ite (fun _ => gives_unsupported_then _) fun _ => ?_
  have bank {b : Bool} (is_float : source.ty.isFloat = b) :
      (S.types value).bank = if b then .float else .int := by rw [← is_type, Ty.bank, is_float]
  split
  · next int _ => exact writes_convertInt (bank int)
  · next int _ =>
    rw [is_type']
    exact writes_convertIntToFloat (bank int) varies
  · next float _ => exact writes_convertFloatToInt (bank float)
  · next float _ =>
    rw [is_type] at float
    rw [is_type, is_type']
    exact writes_convertFloat float varies

theorem writes_lowerAddressOf (value result : ValueId) :
    Writes S .working c (lowerAddressOf value result) := by
  refine gives_quietly (writes_escape value) fun _ _ => ?_
  refine gives_quietly (gives_settle value) fun _ settled => ?_
  refine gives_quietly (writes_discard (writes_consume value)) fun first _ => ?_
  refine gives_quietly gives_pointer fun {dst _} second int => ?_
  have known := settled.1.mono (first.leads.trans second.leads)
  exact gives_seq (of_quiet (writes_loadAddress int known)) (writes_bindInt int result)

theorem StackSlot.Known.advanced (known : slot.Known c) (bytes : Nat) :
    (slot.advanced bytes).Known c := known

theorem writes_copyWords {ptr chunk : Register} (int : ptr.IsInt) (int' : chunk.IsInt)
    (known : slot.Known c) (count done : Nat) :
    Writes S (.quiet into) c (copyWords ptr chunk slot count done) := by
  induction count generalizing c done with
  | zero => exact gives_pure _ trivial
  | succ count ih =>
    have copied {c : Context} (known : slot.Known c) : Writes S (.quiet into) c (do
        emit (.loadPtr chunk ptr 8)
        emit (.storeStack chunk (slot.advanced (done * wordSize)) 8)
        copyWords ptr chunk slot count (done + 1)) := by
      refine gives_bind (writes_silent rfl ⟨int'.2, int⟩ trivial fun float => ?_) fun first _ => ?_
      · simp [Instr.conveys, int'.ne float]
      · have known1 := known.mono first.leads
        refine gives_bind (writes_silent rfl ⟨int'.2, known1.advanced _⟩ trivial fun _ => id)
          fun second _ => ?_
        exact ih (known1.mono second.leads) _
    refine gives_ite (fun _ => ?_) fun _ => copied known
    refine gives_bind (writes_silent rfl ⟨int, trivial⟩ trivial fun _ => id) fun first _ => ?_
    exact copied (known.mono first.leads)

section
variable (int : (S.types pointer).bank = .int)
include int

theorem writes_lowerDereference (varies : S.constants result = none) :
    Writes S .working c (lowerDereference pointer result) := by
  refine gives_of fun sorted => gives_valueOf fun {made} found =>
    gives_ite (fun _ => ?_) fun _ => ?_
  · rw [(sorted.banked.typed found).1]
    refine gives_bind (gives_useInRegister pointer) fun _ used => writes_holding ?_
    refine gives_quietly (gives_obtainRegister _) fun {dst c1} _ offers => ?_
    refine gives_bind (Q := fun _ c' => dst.bank = .float → (S.types result).isSingle = true →
      c'.Knows S.toFlow dst) (Gives.loaded dst ?_ fun _ _ _ occupied => ?_) fun _ known => ?_
    · refine Gives.imp (gives_into rfl ⟨offers.range, used.1.isInt int⟩ trivial fun other => ?_) ?_
      · simp [Instr.conveys, other]
      · intro _ _ _ _ known _ single
        rw [known.2]
        simp [Instr.conveys, (Ty.isSingle_iff.mp single).2]
    · cases offers.empty.symm.trans occupied
    · refine gives_quietly (writes_canonicalize offers.range _) fun last _ => writes_bindRegister ?_
      exact fun float tracks => last.spares float trivial (known float (tracks.isSingle varies).2)
  · refine gives_quietly (gives_allocateSlot _) fun {slot _} _ known => ?_
    refine gives_calmly (gives_takeRegister pointer) fun {ptr c2} first copies => writes_holding ?_
    have is_int := copies.isInt int
    refine gives_quietly gives_pointer fun {chunk _} second int' => ?_
    have known2 := known.mono (first.leads.trans ((Leads.withLock c2 ptr true).trans second.leads))
    refine gives_quietly (writes_copyWords is_int int' known2 _ _) fun third _ => ?_
    exact of_quiet (writes_place (known2.mono third.leads))

theorem writes_lowerStore (suits : ∀ {pointee}, (S.types pointer).pointee? = some pointee →
      (S.types value).Suits pointee) :
    Writes S .working c (lowerStore pointer value) := by
  refine gives_of fun sorted => gives_valueOf fun {target} found => ?_
  have is_type := (sorted.banked.typed found).1
  dsimp only
  cases is_pointee : target.ty.pointee? with
  | none => exact gives_inconsistent _
  | some pointee =>
    refine gives_valueOf fun {source} _ => gives_ite (fun _ => ?_) fun _ => ?_
    · refine gives_bind (gives_useInRegister pointer) fun {ptr _} _ used => writes_holding ?_
      have is_int := used.1.isInt int
      have stored {c : Context} {src : Register} (range : src.inRange = true) :
          Writes S .working c (emit (.storePtr ptr src pointee.size.toUInt8)) :=
        writes_plain rfl ⟨is_int, range⟩ trivial fun _ => id
      refine gives_ite (fun _ => ?_) fun _ => writes_holdingRegisterOf fun _ => of_calm ?_
      · exact gives_bind (gives_useInRegister value) fun _ used' => stored used'.1.range
      · refine writes_scratch fun {r c1} _ offers sorted => ?_
        have copied := gives_copyConverted offers.bank offers.range (sorted.withLock r true)
          (suits (is_type ▸ is_pointee))
        refine gives_seq copied.writes
          (gives_quietly (writes_discard (writes_consume value)) fun _ _ => ?_)
        exact of_quiet (writes_silent rfl ⟨is_int, offers.range⟩ trivial fun _ => id)
    · refine gives_quietly (gives_settle value) fun _ settled => ?_
      refine gives_quietly (writes_discard (writes_consume value)) fun first _ => ?_
      refine gives_bind (gives_useInRegister pointer) fun {ptr c1} second used => writes_holding ?_
      refine gives_quietly gives_pointer fun third int' => ?_
      have known := settled.1.mono (first.leads.trans (second.leads.trans
        ((Leads.withLock c1 ptr true).trans third.leads)))
      refine gives_seq (of_quiet (writes_loadAddress int' known)) ?_
      exact writes_plain rfl ⟨used.1.isInt int, int'⟩ trivial fun _ => id

theorem writes_lowerMember {offset : Nat} :
    Writes S .working c (lowerMember pointer offset result) := by
  refine gives_calmly (gives_takeRegister pointer) fun _ copies => ?_
  have is_int := copies.isInt int
  refine gives_ite (fun _ => ?_) fun _ => writes_bindInt is_int result
  exact gives_seq (writes_plain rfl ⟨is_int, trivial⟩ trivial fun _ => id)
    (writes_bindInt is_int result)

end

theorem writes_lowerFunctionAddress {start : LabelId} (known : S.starts start) (result : ValueId) :
    Writes S .working c (lowerFunctionAddress start result) := by
  refine gives_quietly gives_pointer fun _ int => ?_
  refine gives_seq (writes_plain rfl int trivial fun _ => id) ?_
  exact gives_seq (writes_plain rfl ⟨int, known⟩ trivial fun _ => id) (writes_bindInt int result)

theorem writes_lowerJump {label : LabelId} (known : S.targets label)
    (free : ∀ r, ¬S.arrives label r) : Writes S .working c (lowerJump label) := by
  refine gives_quietly writes_settleAtJoin fun _ _ => ?_
  exact writes_plain rfl known (fun r arrives => (free r arrives).elim) fun _ _ => trivial

theorem writes_lowerBranch {target : LabelId} {jumpIf spillAll : Bool}
    (int : (S.types cond).bank = .int) (known : S.targets target)
    (free : ∀ r, ¬S.arrives target r) :
    Writes S .working c (lowerBranch cond target jumpIf spillAll) := by
  refine gives_bind (gives_useInRegister cond) fun {r _} _ used => writes_holding ?_
  have jumped {c : Context} : Writes S .working c (emit (.jumpIf r target jumpIf)) :=
    writes_plain rfl ⟨used.1.isInt int, known⟩ (fun r arrives => (free r arrives).elim) fun _ => id
  refine gives_quietly writes_flushAll fun _ _ => gives_ite (fun _ => ?_) fun _ => jumped
  exact gives_quietly writes_vacateAll fun _ _ => jumped

theorem Ty.plain_of_isFloat : {ty : Ty} → ty.isFloat = true →
    ty.isVoid = false ∧ ty.isArray = false ∧ ty.isStruct = false ∧ ty.signature? = none
  | .float _, _ => ⟨rfl, rfl, rfl, rfl⟩
  | .const t, is_float => @plain_of_isFloat t is_float

theorem Ty.bank_of_signature? (calls : ty.signature? = some sig) : ty.bank = .int := by
  rw [bank, if_neg]
  intro float
  cases (plain_of_isFloat float).2.2.2.symm.trans calls

theorem CallLayout.suits_result (returned : (ofSignature sig).result = .register r) :
    r.Suits sig.result := by
  simp only [ofSignature, placeResult] at returned
  split at returned
  · cases returned
  by_cases packed : (sig.result.isStruct && sig.result.fitsRegister) = true
  · simp only [packed, ↓reduceIte, resultRegister?, ResultPlace.register.injEq] at returned
    have no_float : ¬sig.result.isFloat = true := by
      intro float
      simp [(Ty.plain_of_isFloat float).2.2.1] at packed
    subst returned
    exact ⟨by rw [Ty.bank, if_neg no_float]; rfl, rfl⟩
  · simp only [packed, Bool.false_eq_true, ↓reduceIte] at returned
    cases passed : PassingClass.ofTy sig.result <;>
      simp only [passed, resultRegister?, ResultPlace.register.injEq, reduceCtorEq] at returned
    · subst returned
      exact ⟨(PassingClass.bank_of_integer passed).symm, rfl⟩
    · subst returned
      exact ⟨(PassingClass.bank_of_float passed).symm, rfl⟩

theorem CallLayout.result_of_isFloat (float : sig.result.isFloat = true)
    (fits : sig.result.fitsRegister = true) : (ofSignature sig).result = .register (.float 0) := by
  have plain := Ty.plain_of_isFloat float
  simp [ofSignature, placeResult, plain, PassingClass.ofTy, float, fits,
    resultRegister?]

theorem Ty.fitsRegister_of_isSingle (single : ty.isSingle = true) : ty.fitsRegister = true := by
  obtain ⟨float, four⟩ := isSingle_iff.mp single
  simp [fitsRegister, plain_of_isFloat float, four]

namespace Signature
variable {s : Signature}

theorem float_of_yields (yields : s.Yields r) : r.bank = .float :=
  (suits_result yields.1).bank.trans (Ty.bank_of_isSingle yields.2)

theorem float_of_carries (carries : s.Carries r) : r.bank = .float := by
  obtain ⟨ty, member, single⟩ := carries
  rw [(register_argument member).2.1, Ty.bank_of_isSingle single]

theorem yields_hostResult (single : s.result.isSingle = true) : s.Yields s.hostResult := by
  have float := (Ty.isSingle_iff.mp single).1
  refine ⟨?_, single⟩
  rw [result_of_isFloat float (Ty.fitsRegister_of_isSingle single), hostResult, if_pos float]

theorem inRange_hostResult : s.hostResult.inRange = true := by
  rw [hostResult]
  split <;> rfl

end Signature

theorem Context.Vacant.locks (vacant : c.Vacant) (locks : c.Locks c') : c'.Vacant := fun r =>
  (locks.occupant r).trans (vacant r)

theorem gives_loading {β : Type} {x : Gen α} {f : α → Gen β} {Q : α → Context → Prop}
    {R : β → Context → Prop} (first : Gives S (.loading dst) c x Q)
    (empty : c.registers.occupant? dst = none)
    (rest : ∀ {a c1}, Wrote S (.loading dst) c c1 → Q a c1 → Gives S .working c1 (f a) R) :
    Gives S .working c (x >>= f) R := by
  intro b c' sorted run
  obtain ⟨a, c1, run1, run2⟩ := runs_bind.mp run
  obtain ⟨wrote, _, q⟩ := first a c1 (sorted.owing _) run1
  have loaded := first.loaded dst fun _ _ _ occupied => by cases empty.symm.trans occupied
  obtain ⟨wrote1, sorted1, _⟩ := loaded a c1 sorted run1
  obtain ⟨wrote2, sorted2, r⟩ := rest wrote q b c' sorted1 run2
  exact ⟨wrote1.trans wrote2, sorted2, r⟩

/-- The argument is in its register, which is locked. -/
structure Scope.Ready (S : Scope) (c : Context) (r : Register) (ty : Ty) : Prop where
  locked : c.registers.isLocked r = true
  single : r.bank = .float → S.precise ∧ ty.isSingle = true → c.Knows S.toFlow r

namespace Scope.Ready

section
variable (ready : S.Ready c r ty)
include ready

theorem quietly (wrote : Wrote S (.quiet into) c c') : S.Ready c' r ty where
  locked := (wrote.isLocked r).trans ready.locked
  single float asked := wrote.spares float trivial (ready.single float asked)

theorem calmly (wrote : Wrote S .calm c c') : S.Ready c' r ty where
  locked := (wrote.isLocked r).trans ready.locked
  single float asked := wrote.spares float ⟨nofun, ready.locked⟩ (ready.single float asked)

theorem loading (wrote : Wrote S (.loading dst) c c') (other : dst ≠ r) : S.Ready c' r ty where
  locked := (wrote.isLocked r).trans ready.locked
  single float asked := by
    refine wrote.spares float ⟨?_, ready.locked⟩ (ready.single float asked)
    exact fun same => other (Option.some.inj same)

theorem withLock (q : Register) : S.Ready (c.withLock q true) r ty where
  locked := isLocked_lock q ready.locked
  single := ready.single

theorem locks (locks : c.Locks c') : S.Ready c' r ty where
  locked := locks.locked ready.locked
  single float asked := by
    rw [Context.Knows, locks.code]
    exact ready.single float asked

end

end Scope.Ready

theorem gives_placeArguments {next : Gen α}
    (stable : ∀ {a c} q locked, R a c → R a (c.withLock q locked))
    {args : List (ValueId × ArgumentPlace × Ty)} {done : Register → Ty → Prop} (vacant : c.Vacant)
    (ready : ∀ {r ty}, done r ty → S.Ready c r ty)
    (suits : ∀ {v place ty}, (v, place, ty) ∈ args → (S.types v).Suits ty)
    (fits : ∀ {v r ty}, (v, .register r, ty) ∈ args → r.Suits ty)
    (apart : args.Pairwise fun a b => ∀ r, a.2.1 = .register r → b.2.1 ≠ .register r)
    (fresh : ∀ {v r ty ty'}, (v, .register r, ty) ∈ args → ¬done r ty') (called : ∀ {c}, c.Vacant →
      (∀ {r ty}, done r ty ∨ (∃ v, (v, .register r, ty) ∈ args) → S.Ready c r ty) →
      Gives S .working c next R) : Gives S .working c (placeArguments next args) R := by
  induction args generalizing c done with
  | nil => exact called vacant fun placed => ready (placed.resolve_right nofun)
  | cons first rest ih =>
    obtain ⟨v, place, ty⟩ := first
    have suits1 := suits (mem_cons_self ..)
    rw [pairwise_cons] at apart
    have later {w : ValueId} {place' : ArgumentPlace} {ty' : Ty}
        (member : (w, place', ty') ∈ rest) :=
      mem_cons_of_mem (v, place, ty) member
    cases place with
    | stack offset =>
      refine gives_calmly (writes_copyConverted nofun rfl suits1) fun first _ => ?_
      refine gives_quietly (writes_discard (writes_consume v)) fun second _ => ?_
      refine ih (vacant.of_shrinks fun occupied => first.shrinks rfl (second.shrinks rfl occupied))
        (fun placed => ((ready placed).calmly first).quietly second)
          (fun member => suits (later member))
        (fun member => fits (later member)) apart.2 (fun member => fresh (later member)) ?_
      intro c vacant placed
      refine called vacant fun placed' => placed (placed'.imp_right ?_)
      rintro ⟨w, member⟩
      exact ⟨w, by simpa using member⟩
    | register r =>
      have fits1 := fits (mem_cons_self ..)
      refine gives_of fun sorted => ?_
      refine gives_loading (gives_copyConverted fits1.bank fits1.range sorted suits1) (vacant r)
        fun {_ c1} first single => gives_holding ?_ stable
      refine gives_quietly (writes_discard (writes_consume v)) fun {_ c2} second _ => ?_
      have vacant2 : c2.Vacant :=
        ((vacant.of_shrinks (first.shrinks rfl)).withLock r true).of_shrinks
        (second.shrinks rfl)
      have own : S.Ready (c1.withLock r true) r ty :=
        ⟨isLocked_lock_self c1.registers fits1.range, single⟩
      -- The register joins those that were loaded before, none of which it is.
      refine @ih c2 (fun q t => done q t ∨ q = r ∧ t = ty) vacant2 ?_
        (fun member => suits (later member))
        (fun member => fits (later member)) apart.2 ?_ ?_
      · rintro q t (placed | ⟨rfl, rfl⟩)
        · have other : r ≠ q := by
            rintro rfl
            exact fresh (mem_cons_self ..) placed
          exact (((ready placed).loading first other).withLock r).quietly second
        · exact own.quietly second
      · rintro w q t t' member (placed | ⟨rfl, rfl⟩)
        · exact fresh (later member) placed
        · exact apart.1 _ member q rfl rfl
      · intro c vacant placed
        refine called vacant fun placed' => placed ?_
        rcases placed' with placed' | ⟨w, member⟩
        · exact .inl (.inl placed')
        · rcases mem_cons.mp member with same | member
          · cases same
            exact .inl (.inr ⟨rfl, rfl⟩)
          · exact .inr ⟨w, member⟩

def Callee.Reaches (S : Scope) (sig : Signature) (start : Option LabelId) : Callee → Prop
  | .direct _ => ∀ {label}, start = some label → S.starts label
      ∧ (∀ {r}, S.arrives label r → S.precise ∧ sig.Carries r)
      ∧ ∀ {r}, sig.Yields r → S.returns label r
  | .indirect pointer => (S.types pointer).bank = .int ∧ ∀ index, S.site index sig

theorem gives_called (vacant : c.Vacant) (code : i.isRemark = false) (fine : i.Fine S c)
    (sound : i.Sound S.toFlow c.code.toList) :
    Gives S .working c (emit i) fun _ => c.Pushes S i := by
  refine gives_emit code fine sound fun {r} _ kept => ?_
  obtain ⟨_, v, occupied⟩ | spared := kept
  · cases (vacant r).symm.trans occupied
  · exact spared.elim

theorem gives_counted (known : ∀ {r}, sig.Yields r → c.Knows S.toFlow r) :
    Gives S .working c (record .addCall) fun _ c' => ∀ {r}, sig.Yields r → c'.Knows S.toFlow r := by
  have quiet : Writes S (.quiet Mode.working.into) c (record .addCall) := writes_record _
  refine of_quiet (quiet.imp fun wrote _ _ r yields => ?_)
  exact wrote.spares (float_of_yields yields) trivial (known yields)

theorem gives_emitCall (vacant : c.Vacant) (carries : ∀ {r}, S.precise → sig.Carries r →
      c.registers.isLocked r = true ∧ c.Knows S.toFlow r)
    (reaches : callee.Reaches S sig start) :
    Gives S .working c (emitCall start callee) fun _ c' => ∀ {r}, sig.Yields r →
    c'.Knows S.toFlow r := by
  unfold emitCall
  split
  · next pointer =>
    refine gives_calmly (gives_copyToRegister pointer) fun first copies => ?_
    refine gives_quietly (writes_discard (writes_consume pointer)) fun second _ => ?_
    have vacant2 :=
      vacant.of_shrinks fun occupied => first.shrinks rfl (second.shrinks rfl occupied)
    refine gives_bind (gives_called vacant2 rfl (copies.isInt reaches.1) ?_)
      fun _ known => gives_counted ?_
    · refine ⟨sig, reaches.2 _, fun r precise carried => ?_⟩
      have float := float_of_carries carried
      obtain ⟨locked, known⟩ := carries precise carried
      exact second.spares float trivial (first.spares float ⟨nofun, locked⟩ known)
    · exact fun yields => (known.2 _).mpr ⟨sig, reaches.2 _, yields⟩
  · obtain ⟨starts, arrives, returns⟩ := reaches rfl
    refine gives_bind (gives_called vacant rfl starts fun r arrived => ?_)
      fun _ known => gives_counted ?_
    · obtain ⟨precise, carried⟩ := arrives arrived
      exact (carries precise carried).2
    · exact fun yields => (known.2 _).mpr (returns yields)
  · exact gives_throw_then _

theorem gives_reserveBuffer (sig : Signature) (layout : CallLayout) :
    Gives S (.quiet into) c (reserveBuffer sig layout) fun buffer c' =>
      ∀ {slot}, buffer = some slot → slot.Known c' := by
  unfold reserveBuffer
  split
  · refine gives_bind (gives_allocateSlot _) fun first known => ?_
    refine gives_bind gives_pointer fun second int => ?_
    have known2 := known.mono second.leads
    refine gives_bind (writes_silent rfl ⟨int, known2⟩ trivial fun _ => id) fun third _ => ?_
    refine gives_bind (writes_silent rfl ⟨int.2, nofun⟩ trivial fun _ => id)
      fun fourth _ => gives_pure _ ?_
    rintro _ ⟨⟩
    exact known2.mono (third.leads.trans fourth.leads)
  · exact gives_pure _ nofun

theorem writes_bindResult {buffer : Option StackSlot}
    (known : ∀ {slot}, buffer = some slot → slot.Known c) (single : ∀ {r},
      (CallLayout.ofSignature sig).result = .register r → S.Tracks result → c.Knows S.toFlow r) :
    Writes S .working c (bindResult (.ofSignature sig) buffer result) := by
  unfold bindResult
  split
  · next returned => exact writes_bindRegister fun _ tracks => single returned tracks
  · exact of_quiet (writes_place (known rfl))
  · exact gives_inconsistent _

theorem CallLayout.placed_apart (count : args.length = (ofSignature sig).arguments.length) :
    (args.zip ((ofSignature sig).arguments.zip sig.params)).reverse.Pairwise
      fun a b => ∀ r, a.2.1 = .register r → b.2.1 ≠ .register r := by
  have places : ((ofSignature sig).arguments.zip sig.params).Pairwise
      fun a b => ∀ r, b.1 = .register r → a.1 ≠ .register r := by
    rw [← zip_swap, pairwise_map]
    refine (arguments_apart sig).imp fun {a b} apart r second first => ?_
    simp only [Prod.fst_swap] at first second
    simp [Convention.Apart, first, second] at apart
  have second : (args.zip ((ofSignature sig).arguments.zip sig.params)).map Prod.snd
      = (ofSignature sig).arguments.zip sig.params :=
    map_snd_zip (by simp [count])
  rw [← second, pairwise_map] at places
  exact pairwise_reverse.mpr places

theorem gives_vacateAll : Gives S (.quiet into) c vacateAll fun _ c' => True ∧ c'.Vacant :=
  writes_vacateAll.also fun run => empties_vacateAll run

theorem writes_lowerInternalCall {result : Option ValueId} (reaches : callee.Reaches S sig start)
    (suits : List.Forall₂ (fun v ty => (S.types v).Suits ty) args sig.params)
    (made : ∀ {v}, result = some v → S.constants v = none
      ∧ ((S.types v).isSingle = true → sig.result.isSingle = true)) :
    Writes S .working c (lowerInternalCall sig start callee args result) := by
  refine gives_ite (fun _ => gives_throw_then _) fun counted => ?_
  rw [not_not] at counted
  refine gives_quietly gives_vacateAll fun _ vacant => ?_
  refine gives_quietly (gives_reserveBuffer _ _) fun {buffer c1} reserved known => ?_
  have vacant1 := vacant.2.of_shrinks (reserved.shrinks rfl)
  have placed_argument {v : ValueId} {place : ArgumentPlace} {ty : Ty} (member : (v, place, ty) ∈
      (args.zip ((CallLayout.ofSignature sig).arguments.zip sig.params)).reverse) :
      (S.types v).Suits ty
        ∧ (ty, place) ∈ sig.params.zip (CallLayout.ofSignature sig).arguments := by
    rw [List.mem_reverse] at member
    obtain ⟨i, at_i⟩ := List.mem_iff_getElem?.mp member
    rw [List.getElem?_zip_eq_some, List.getElem?_zip_eq_some] at at_i
    refine ⟨?_, List.mem_iff_getElem?.mpr ⟨i, List.getElem?_zip_eq_some.mpr ⟨at_i.2.2, at_i.2.1⟩⟩⟩
    obtain ⟨small, rfl⟩ := List.getElem?_eq_some_iff.mp at_i.1
    obtain ⟨small', rfl⟩ := List.getElem?_eq_some_iff.mp at_i.2.2
    exact suits.get small small'
  have passed : Gives S .working c1 (placeArguments (emitCall start callee)
      (args.zip ((CallLayout.ofSignature sig).arguments.zip sig.params)).reverse)
      fun _ c' => ∀ {r}, sig.Yields r → c'.Knows S.toFlow r := by
    refine @gives_placeArguments _ S c1 _ _ (fun _ _ known => known)
      _ (fun _ _ => False) vacant1 nofun
      (fun member => (placed_argument member).1) (fun member => ?_)
        (CallLayout.placed_apart counted)
      (fun _ => not_false) fun vacant ready => gives_emitCall vacant
        (fun precise carried => ?_) reaches
    · obtain ⟨_, bank, few⟩ := CallLayout.register_argument (placed_argument member).2
      exact ⟨bank, by simpa [Register.inRange] using few.trans (by decide)⟩
    · have float := float_of_carries carried
      obtain ⟨ty, member, single⟩ := carried
      obtain ⟨i, at_i⟩ := List.mem_iff_getElem?.mp member
      obtain ⟨at_ty, at_place⟩ := List.getElem?_zip_eq_some.mp at_i
      have small : i < args.length := by
        rw [counted]
        exact (List.getElem?_eq_some_iff.mp at_place).1
      have in_place := ready (.inr ⟨args[i], List.mem_reverse.mpr (List.mem_iff_getElem?.mpr
        ⟨i, List.getElem?_zip_eq_some.mpr ⟨List.getElem?_eq_getElem small,
          List.getElem?_zip_eq_some.mpr ⟨at_place, at_ty⟩⟩⟩)⟩)
      exact ⟨in_place.locked, in_place.single float ⟨precise, single⟩⟩
  refine gives_bind passed fun second yields =>
    gives_quietly (writes_dropAll false) fun third _ => ?_
  cases result with
  | none => exact gives_pure _ trivial
  | some v =>
    refine writes_bindResult
      (fun is_slot => (known is_slot).mono (second.leads.trans third.leads)) ?_
    intro r returned tracks
    obtain ⟨varies, single⟩ := made rfl
    have yielded : sig.Yields r := ⟨returned, single (tracks.isSingle varies).2⟩
    exact third.spares (float_of_yields yielded) trivial (yields yielded)

theorem gives_loadArguments {next : List (Register × Word) → Gen α}
    (stable : ∀ {a c} q locked, R a c → R a (c.withLock q locked)) {args : List (ValueId × Ty)}
    {done : List Ty} (vacant : c.Vacant)
    (ready : Forall₂ (fun argument ty => argument.1.Suits ty ∧ argument.2 = argumentTag ty
      ∧ S.Ready c argument.1 ty) loaded done)
    (suits : ∀ {v ty}, (v, ty) ∈ args → (S.types v).Suits ty) (called : ∀ {c loaded}, c.Vacant →
      Forall₂ (fun argument ty => argument.1.Suits ty ∧ argument.2 = argumentTag ty
        ∧ S.Ready c argument.1 ty) loaded ((args.map Prod.snd).reverse ++ done) →
      Gives S .working c (next loaded) R) :
    Gives S .working c (loadArguments next args loaded) R := by
  induction args generalizing c loaded done with
  | nil => exact called vacant ready
  | cons first rest ih =>
    obtain ⟨v, ty⟩ := first
    refine gives_holdingRegisterOf (fun {c1} locks => ?_) stable
    refine gives_quietly (gives_obtainRegister _) fun {r c2} first offers => ?_
    refine gives_of fun sorted => gives_holding ?_ stable
    have vacant2 : c2.Vacant := (vacant.locks locks).of_shrinks (first.shrinks rfl)
    refine gives_loading (gives_copyConverted offers.bank offers.range (sorted.withLock r true)
      (suits (mem_cons_self ..))) (vacant2.withLock r true r) fun {_ c3} second single => ?_
    refine gives_quietly (writes_discard (writes_consume v)) fun {_ c4} third _ => ?_
    have own : S.Ready c3 r ty := by
      refine ⟨?_, single⟩
      rw [second.isLocked]
      exact isLocked_lock_self c2.registers offers.range
    refine @ih _ c4 (ty :: done) ?_ (.cons ?_ (ready.imp fun {argument ty} before => ?_))
      (fun member => suits (mem_cons_of_mem _ member)) fun vacant loaded => called vacant ?_
    · exact ((vacant2.withLock r true).of_shrinks (second.shrinks rfl)).of_shrinks
        (third.shrinks rfl)
    · exact ⟨⟨offers.bank, offers.range⟩, rfl, own.quietly third⟩
    · -- What was loaded before is locked, so the register that was obtained is another one.
      have before1 := before.2.2.locks locks
      have other : r ≠ argument.1 := by
        rintro rfl
        cases offers.unlocked.symm.trans before1.locked
      exact ⟨before.1, before.2.1,
        (((before1.quietly first).withLock r).loading second other).quietly third⟩
    · simpa using loaded

theorem gives_pushArguments (range : ∀ argument ∈ loaded, argument.1.inRange = true) :
    Gives S (.quiet into) c (forIn loaded PUnit.unit fun (argument : Register × Word) _ => do
      emit (.push argument.1)
      emit (.pushImm argument.2)
      pure (ForInStep.yield PUnit.unit)) fun _ c' =>
        c'.code.toList = c.code.toList ++ loaded.flatMap fun argument =>
        [.push argument.1, .pushImm argument.2] := by
  induction loaded generalizing c with
  | nil => exact gives_pure _ (by simp)
  | cons first rest ih =>
    rw [forall_mem_cons] at range
    rw [forIn_cons, bind_assoc]
    refine gives_bind (gives_silent rfl range.1 trivial fun _ => id) fun _ pushed => ?_
    rw [bind_assoc]
    refine gives_bind (gives_silent rfl trivial trivial fun _ => id) fun _ pushed' =>
      gives_pure_bind _ ?_
    refine (ih range.2).imp fun _ _ code => ?_
    rw [code, pushed'.1, pushed.1]
    simp [Context.pushed]

theorem gives_emitExternalCall (vacant : c.Vacant)
    (ready : List.Forall₂ (fun argument ty => argument.1.Suits ty ∧ argument.2 = argumentTag ty
      ∧ S.Ready c argument.1 ty) loaded decl.signature.params.reverse)
    (host : S.host decl) (linked : decl.linkage = .external handle)
    (site : ∀ index, S.site index decl.signature) : Gives S .working c
    (emitExternalCall handle decl.signature.result.isFloat decl.signature.hostResult loaded)
      fun _ c' => ∀ {r}, decl.signature.Yields r → c'.Knows S.toFlow r := by
  have range (argument : Register × Word) (member : argument ∈ loaded) :
      argument.1.inRange = true := by
    obtain ⟨i, at_i⟩ := List.mem_iff_getElem?.mp member
    obtain ⟨small, rfl⟩ := List.getElem?_eq_some_iff.mp at_i
    exact (ready.get small (ready.length_eq ▸ small)).1.range
  refine gives_quietly (gives_silent rfl trivial trivial fun _ => id) fun first pushed1 => ?_
  refine gives_quietly (gives_silent rfl trivial trivial fun _ => id) fun second pushed2 => ?_
  refine gives_quietly (gives_silent rfl trivial trivial fun _ => id) fun third pushed3 => ?_
  refine gives_quietly (gives_pushArguments range) fun {_ c4} fourth pushed4 => ?_
  have wrote := first.trans (second.trans (third.trans fourth))
  have vacant4 := vacant.of_shrinks (wrote.shrinks rfl)
  refine gives_bind (gives_called vacant4 rfl inRange_hostResult ?_) fun _ known => gives_counted ?_
  · refine ⟨decl, handle, loaded, c.code.toList, host, linked, site _, rfl, ?_, ready.imp ?_⟩
    · rw [pushed4, pushed3.1, pushed2.1, pushed1.1]
      simp [Context.pushed, Instr.handsOver]
    · intro argument ty before
      refine ⟨before.1.bank, before.2.1, fun precise single => ?_⟩
      have float : argument.1.bank = .float := before.1.bank.trans (Ty.bank_of_isSingle single)
      exact wrote.spares float trivial (before.2.2.single float ⟨precise, single⟩)
  · exact fun yields => (known.2 _).mpr ⟨decl.signature, site _, yields⟩

theorem writes_lowerExternalCall
    {result : Option ValueId} (host : S.host decl) (linked : decl.linkage = .external handle)
    (site : ∀ index, S.site index decl.signature)
    (suits : List.Forall₂ (fun v ty => (S.types v).Suits ty) args decl.signature.params)
    (made : ∀ {v}, result = some v → S.constants v = none
      ∧ ((S.types v).isSingle = true → decl.signature.result.isSingle = true)) :
    Writes S .working c (lowerExternalCall decl handle args result) := by
  refine gives_ite (fun _ => gives_throw_then _) fun counted => ?_
  rw [not_not] at counted
  refine gives_quietly gives_vacateAll fun {_ c1} _ vacant => ?_
  have passed : Gives S .working c1 (loadArguments
      (emitExternalCall handle decl.signature.result.isFloat decl.signature.hostResult)
      (args.zip decl.signature.params) [])
      fun _ c' => ∀ {r}, decl.signature.Yields r → c'.Knows S.toFlow r := by
    refine gives_loadArguments (fun _ _ known => known) vacant.2 .nil (fun {v ty} member => ?_)
      fun vacant ready => gives_emitExternalCall vacant ?_ host linked site
    · obtain ⟨i, at_i⟩ := List.mem_iff_getElem?.mp member
      rw [List.getElem?_zip_eq_some] at at_i
      obtain ⟨small, rfl⟩ := List.getElem?_eq_some_iff.mp at_i.1
      obtain ⟨small', rfl⟩ := List.getElem?_eq_some_iff.mp at_i.2
      exact suits.get small small'
    · rwa [List.map_snd_zip (by omega), List.append_nil] at ready
  refine gives_bind passed fun _ yields => gives_quietly (writes_dropAll false) fun last _ => ?_
  cases result with
  | none => exact gives_pure _ trivial
  | some v =>
    refine writes_bindRegister fun float tracks => ?_
    obtain ⟨varies, single⟩ := made rfl
    exact last.spares float trivial
      (yields (yields_hostResult (single (tracks.isSingle varies).2)))

theorem gives_returnInRegister (fits : r.Suits ty) (suits : (S.types v).Suits ty) :
    Gives S .working c (returnInRegister v r ty) fun _ c' =>
      r.bank = .float → S.precise ∧ ty.isSingle = true → c'.Knows S.toFlow r := by
  have returned {c : Context} : Gives S .working c (holding r do
      holdingRegisterOf v do
        copyConverted v (.register r) ty
        discard (consume v)
        retireRegisters) fun _ c' => r.bank = .float → S.precise ∧ ty.isSingle = true →
          c'.Knows S.toFlow r := by
    refine gives_of fun sorted => ?_
    have loaded : Gives S (.loading r) c (holding r do
        holdingRegisterOf v do
          copyConverted v (.register r) ty
          discard (consume v)
          retireRegisters) fun _ c' => r.bank = .float → S.precise ∧ ty.isSingle = true →
            c'.Knows S.toFlow r := by
      refine gives_holding (gives_holdingRegisterOf (fun {c1} locks => ?_) fun _ _ known => known)
        fun _ _ known => known
      have sorted1 := (sorted.withLock r true).locks locks
      refine gives_bind (gives_copyConverted fits.bank fits.range sorted1 suits) fun _ known => ?_
      exact gives_keeping
        (gives_seq (writes_discard (writes_consume v)) writes_retireRegisters) known
    have emptied : Empties (holding r do
        holdingRegisterOf v do
          copyConverted v (.register r) ty
          discard (consume v)
          retireRegisters) :=
      empties_holding <| empties_holdingRegisterOf <| empties_bind fun _ => empties_bind fun _ =>
        empties_retireRegisters
    refine ((loaded.also fun run => emptied run).loaded r fun known _ occupied => ?_).imp
      fun _ _ known => known.1
    cases (known.2 r).symm.trans occupied
  refine gives_valueOf fun _ => gives_ite (fun _ => ?_) fun _ => returned
  exact gives_seq (gives_displace r).writes returned

theorem writes_returnInMemory
    (int : ∀ {pointer}, decl.returnPointer = some pointer → (S.types pointer).bank = .int) :
    Writes S .working c (returnInMemory decl v) := by
  unfold returnInMemory
  cases is_pointer : decl.returnPointer with
  | none => exact gives_inconsistent _
  | some pointer =>
    refine gives_quietly (gives_settle v) fun _ settled => ?_
    refine gives_quietly (writes_discard (writes_consume v)) fun first _ => ?_
    refine gives_calmly (gives_copyToRegister pointer)
      fun {dst c1} second copies => writes_holding ?_
    refine gives_quietly gives_pointer fun {src c2} third int' => writes_holding ?_
    have known :=
      settled.1.mono (first.leads.trans (second.leads.trans ((Leads.withLock c1 dst true).trans
      (third.leads.trans (.withLock c2 src true)))))
    refine gives_seq (of_quiet (writes_loadAddress int' known)) ?_
    refine gives_seq (writes_plain rfl ⟨copies.isInt (int is_pointer), int'⟩ trivial fun _ => id) ?_
    exact of_quiet writes_retireRegisters

def Callee.signature? (types : ValueId → Ty) (functions : Array Declaration) :
    Callee → Option Signature
  | .direct function => functions[function.index]?.map Declaration.signature
  | .indirect pointer => (types pointer).signature?

/-- The labels of functions stand for what the functions are. -/
structure Scope.Links (S : Scope) (functions : Array Declaration) (decl : Declaration) : Prop where
  start : ∀ {callee}, callee ∈ functions → callee.isExternal = false → S.starts callee.start
  carries : ∀ {callee r}, callee ∈ functions → callee.isExternal = false →
    S.arrives callee.start r →
    S.precise ∧ callee.signature.Carries r
  yields : ∀ {callee r}, callee ∈ functions → callee.isExternal = false →
    callee.signature.Yields r →
    S.returns callee.start r
  host : ∀ {callee}, callee ∈ functions → S.host callee
  epilogue : S.targets decl.epilogue
  ends : ∀ {r}, S.arrives decl.epilogue r → S.precise ∧ decl.signature.Yields r

/-- The operands of the operation have types of the banks that its rule works with, and what it
names exists. -/
def Operation.Legal (S : Scope) (functions : Array Declaration) (decl : Declaration) :
    Operation → Prop
  | .binary _ lhs rhs result inPlace => (S.types lhs).bank = (S.types rhs).bank
      ∧ S.constants result = none ∧ (inPlace = true → result = lhs)
  | .compare _ lhs rhs _ => (S.types lhs).bank = (S.types rhs).bank
  | .unary op operand result => S.constants result = none
      ∧ (op = .bitNot → (S.types operand).bank = .int)
      ∧ (op = .neg → (S.types result).isSingle = true → (S.types operand).isSingle = true)
  | .convert _ result => S.constants result = none
  | .assign target value => (S.types value).Suits (S.types target)
  | .call callee args result => ∃ sig, callee.signature? S.types functions = some sig
      ∧ (∀ index, S.site index sig)
      ∧ Forall₂ (fun v ty => (S.types v).Suits ty) args sig.params
      ∧ ∀ {v}, result = some v → S.constants v = none
        ∧ ((S.types v).isSingle = true → sig.result.isSingle = true)
  | .addressOf _ _ => True
  | .dereference pointer result => (S.types pointer).bank = .int ∧ S.constants result = none
  | .store pointer value => (S.types pointer).bank = .int
      ∧ ∀ {pointee}, (S.types pointer).pointee? = some pointee → (S.types value).Suits pointee
  | .member pointer _ _ => (S.types pointer).bank = .int
  | .functionAddress function _ => ∀ {callee}, functions[function.index]? = some callee →
      callee.isExternal = false
  | .label _ => True
  | .jump target => S.targets target ∧ ∀ r, ¬S.arrives target r
  | .branch cond target _ _ => (S.types cond).bank = .int ∧ S.targets target
      ∧ ∀ r, ¬S.arrives target r
  | .ret none => decl.signature.result.isSingle = false
  | .ret (some v) => (S.types v).Suits decl.signature.result
      ∧ ∀ {pointer}, decl.returnPointer = some pointer → (S.types pointer).bank = .int
  | .comment _ => True

section
variable {functions : Array Declaration} (links : S.Links functions decl)
include links

theorem writes_lowerCall {result : Option ValueId}
    (legal : (Operation.call callee args result).Legal S functions decl) :
    Writes S .working c (lowerCall functions callee args result) := by
  obtain ⟨sig, has_signature, site, suits, made⟩ := legal
  cases callee with
  | direct function =>
    obtain ⟨called, known, rfl⟩ := Option.map_eq_some_iff.mp has_signature
    have member := Array.mem_of_getElem? known
    have found : findFunction functions function = pure called := by rw [findFunction, known]
    rw [lowerCall, found]
    refine gives_pure_bind called ?_
    cases linked : called.linkage with
    | external handle => exact writes_lowerExternalCall (links.host member) linked site suits made
    | internal =>
      have internal : called.isExternal = false := by rw [Declaration.isExternal, linked]
      refine writes_lowerInternalCall ?_ suits made
      rintro _ ⟨⟩
      exact ⟨links.start member internal, links.carries member internal,
        links.yields member internal⟩
  | indirect pointer =>
    refine gives_of fun sorted => gives_valueOf fun {value} found => ?_
    change (S.types pointer).signature? = some sig at has_signature
    have is_type := (sorted.banked.typed found).1
    simp only [is_type, has_signature]
    refine gives_ite (fun _ => gives_throw_then _) fun _ => ?_
    exact writes_lowerInternalCall ⟨Ty.bank_of_signature? has_signature, site⟩ suits made

theorem gives_lowerReturn {value : Option ValueId}
    (legal : (Operation.ret value).Legal S functions decl) :
    Gives S .working c (lowerReturn decl value isLast) fun _ c' =>
      ∀ {r}, S.precise → decl.signature.Yields r → c'.Knows S.toFlow r := by
  have ended {c : Context}
      (known : ∀ {r}, S.precise → decl.signature.Yields r → c.Knows S.toFlow r) :
      Gives S .working c (do if !isLast then emit (.jump decl.epilogue)) fun _ c' =>
        ∀ {r}, S.precise → decl.signature.Yields r → c'.Knows S.toFlow r := by
    refine gives_ite (fun _ => ?_) fun _ => gives_pure _ known
    refine Gives.imp (gives_emit rfl links.epilogue (fun r arrives => ?_) fun _ _ _ => trivial) ?_
    · obtain ⟨precise, yields⟩ := links.ends arrives
      exact known precise yields
    · exact fun _ _ known r _ _ => (known.2 r).mpr trivial
  unfold lowerReturn
  cases value with
  | none =>
    refine gives_seq (of_quiet writes_retireRegisters) (ended fun _ yields => ?_)
    have double : decl.signature.result.isSingle = false := legal
    cases double.symm.trans yields.2
  | some v =>
    obtain ⟨suits, pointer⟩ := legal
    cases returned : decl.layout.result with
    | register r =>
      have fits := suits_result returned
      refine gives_bind (gives_returnInRegister fits suits) fun _ known =>
        ended fun precise yields => ?_
      obtain rfl := ResultPlace.register.inj (returned.symm.trans yields.1)
      exact known (float_of_yields yields) ⟨precise, yields.2⟩
    | memory =>
      refine gives_seq (writes_returnInMemory pointer) (ended fun _ yields => ?_)
      cases returned.symm.trans yields.1
    | void => exact gives_throw_then _

theorem gives_lowerOperation {operation : Operation} (legal : operation.Legal S functions decl)
    (unplaced : operation.places? = none) :
    Gives S .working c (lowerOperation functions decl isLast operation) fun _ c' =>
      operation.isReturn = true → ∀ {r}, S.precise → decl.signature.Yields r →
      c'.Knows S.toFlow r := by
  have plain {x : Gen Unit} (writes : Writes S .working c x)
      (no_return : operation.isReturn = false) :
      Gives S .working c x fun _ c' =>
        operation.isReturn = true → ∀ {r}, S.precise → decl.signature.Yields r →
          c'.Knows S.toFlow r :=
    writes.imp fun _ _ _ returns => by cases no_return.symm.trans returns
  cases operation with
  | binary op lhs rhs result inPlace =>
    exact plain (writes_lowerBinary legal.1 legal.2.1 legal.2.2) rfl
  | compare op lhs rhs result => exact plain (writes_lowerCompare legal) rfl
  | unary op operand result => exact plain (writes_lowerUnary legal.1 legal.2.1 legal.2.2) rfl
  | convert value result => exact plain (writes_lowerConvert legal) rfl
  | assign target value => exact plain (writes_lowerAssign legal) rfl
  | call callee args result => exact plain (writes_lowerCall links legal) rfl
  | addressOf value result => exact plain (writes_lowerAddressOf value result) rfl
  | dereference pointer result => exact plain (writes_lowerDereference legal.1 legal.2) rfl
  | store pointer value => exact plain (writes_lowerStore legal.1 legal.2) rfl
  | member pointer offset result => exact plain (writes_lowerMember legal) rfl
  | functionAddress function result =>
    refine plain ?_ rfl
    rw [lowerOperation, findFunction]
    split
    · next called known =>
      refine gives_pure_bind called (writes_lowerFunctionAddress ?_ result)
      exact links.start (Array.mem_of_getElem? known) (legal known)
    · exact gives_throw_then _
  | label target => cases unplaced
  | jump target => exact plain (writes_lowerJump legal.1 legal.2) rfl
  | branch cond target jumpIf spillAll =>
    exact plain (writes_lowerBranch legal.1 legal.2.1 legal.2.2) rfl
  | ret value => exact (gives_lowerReturn links legal).imp fun _ _ known _ => known
  | comment text => exact plain (of_quiet (writes_comment text)) rfl

theorem gives_lowerUnchecked {item : BodyItem} (legal : item.operation.Legal S functions decl)
    (unplaced : item.operation.places? = none) :
    Gives S .working c (lowerUnchecked functions decl item isLast) fun _ c' =>
      item.operation.isReturn = true → ∀ {r}, S.precise → decl.signature.Yields r →
      c'.Knows S.toFlow r := by
  have rest {c : Context} : Gives S .working c (do
      setLocation item.loc
      lowerOperation functions decl isLast item.operation
      record (·.addOperation item.operation.kind)
      releaseEscaped) fun _ c' => item.operation.isReturn = true → ∀ {r}, S.precise →
        decl.signature.Yields r → c'.Knows S.toFlow r := by
    refine gives_quietly (writes_setLocation _) fun _ _ => ?_
    refine gives_bind (gives_lowerOperation links legal unplaced) fun _ known => ?_
    have quiet {c : Context} : Writes S (.quiet Mode.working.into) c (do
        record (·.addOperation item.operation.kind)
        releaseEscaped) := gives_seq (writes_record _) writes_releaseEscaped
    refine of_quiet (quiet.imp fun wrote _ _ returns r precise yields => ?_)
    exact wrote.spares (float_of_yields yields) trivial (known returns precise yields)
  exact gives_ite (fun _ => gives_quietly (writes_comment _) fun _ _ => rest) fun _ => rest

end

end RegisterBackend
