import RegisterBackend.Proofs.Emission
import RegisterBackend.Proofs.Transfer

/-!
The allocator keeps to what may be written. Making room is quiet: no float register changes its
content, and registers are only emptied.
-/
namespace RegisterBackend

open Gen RegisterFile Context Gives Ty

variable {dst r src : Register} {place source target : Position} {ty : Ty}
  {v : ValueId} {value : Value}

variable {α : Type} {S : Scope} {m : Mode} {c c' : Context} {into : Option Register} {x : Gen α}
  {Q : α → Context → Prop}

theorem Register.IsInt.ne {q : Register} (int : r.IsInt) (float : q.bank = .float) : q ≠ r := by
  rintro rfl
  cases int.1.symm.trans float

/-- The register was obtained: it is empty and may be overwritten. -/
structure Context.Offers (c : Context) (bank : Bank) (r : Register) (c' : Context) : Prop where
  bank : r.bank = bank
  range : r.inRange = true
  unlocked : c.registers.isLocked r = false
  empty : c'.registers.occupant? r = none

theorem Context.Offers.isInt (offers : c.Offers .int r c') : r.IsInt :=
  ⟨offers.bank, offers.range⟩

theorem writes_loadAddress (int : dst.IsInt) (known : place.Known c) :
    Writes S (.quiet into) c (loadAddress dst place) := by
  cases place with
  | register r => exact gives_inconsistent _
  | stack slot => exact writes_silent rfl ⟨int, known⟩ trivial fun _ => id
  | static offset =>
    refine gives_seq (writes_silent rfl int trivial fun _ => id) ?_
    exact writes_silent rfl ⟨int, trivial⟩ trivial fun _ => id
  | constant blob =>
    refine gives_bind (gives_silent rfl int trivial fun _ => id) fun wrote _ => ?_
    exact writes_silent rfl ⟨int, ConstantId.Known.mono known wrote.leads⟩ trivial fun _ => id

section
variable {scratch : Gen Register}
  (gives_scratch : ∀ {c}, Gives S (.quiet into) c scratch fun r _ => r.IsInt)
include gives_scratch

theorem writes_storeVia (ty : Ty) (range : src.inRange = true) (known : target.Known c)
    (own : ∀ {dst}, target = .register dst → dst = src) :
    Writes S (.quiet into) c (storeVia scratch src target ty) := by
  have through : Writes S (.quiet into) c (holding src do
      let ptr ← scratch
      loadAddress ptr target
      emit (.storePtr ptr src ty.size.toUInt8)) := by
    refine writes_holding (gives_bind gives_scratch fun {ptr c1} wrote int => ?_)
    have known1 := known.mono ((Leads.withLock c src true).trans wrote.leads)
    refine gives_seq (writes_loadAddress int known1) ?_
    exact writes_silent rfl ⟨int, range⟩ trivial fun _ => id
  unfold storeVia
  cases target with
  | register dst =>
    exact gives_ite (fun other => (other (own rfl).symm).elim) fun _ => gives_pure _ trivial
  | stack slot => exact writes_silent rfl ⟨range, known⟩ trivial fun _ => id
  | static offset => exact through
  | constant id => exact through

theorem writes_writeBackVia (v : ValueId) (range : r.inRange = true) :
    Writes S (.quiet into) c (writeBackVia scratch v r) := by
  refine gives_bind (gives_homeOf v) fun {home c1} _ is_home => gives_valueOf fun _ => ?_
  refine gives_seq (writes_storeVia gives_scratch _ range is_home.1 ?_) ?_
  · rintro dst rfl
    cases is_home.2
  · exact gives_seq (writes_setDirty _ _) (writes_record _)

end

theorem gives_spill (found : c.values.get? v = some value) (unnamed : value.isNamed = false)
    (here : c.registers.occupant? r = some v ∨ value.position = some (.register r)) :
    Gives S (.quiet into) c (spill v r) fun _ c' => c'.registers.occupant? r = none
      ∧ ∀ {value}, c'.values.get? v = some value → ∃ slot, value.position = some (.stack slot) := by
  intro u c' sorted run
  obtain ⟨held, leads, locked⟩ := Discipline.walks_spill found unnamed here u c' sorted.held run
  obtain ⟨_, slot, c1, w, same, hands, range, occupied, rfl⟩ := runs_spill run
  obtain rfl := Option.mem_unique found same
  set stored := Instr.storeStack r slot value.ty.size.toUInt8
  set c' : Context := { c1 with
    registers := c1.registers.setOccupant r none
    values := c1.values.modify v ({ · with position := some (.stack slot) })
    code := c1.code.push stored
    statistics := c1.statistics.addSpill }
  have code : c'.code.toList = c.code.toList ++ [stored] := by simp [c', hands.aside.code]
  have known {q : Register} : c'.Knows S.toFlow q ↔ c.Knows S.toFlow q := by
    have pushed : (c.pushed stored).Knows S.toFlow q ↔ c.Knows S.toFlow q :=
      knows_pushed sorted.begun stored q
    simpa only [Context.Knows, Context.pushed, code, Array.toList_push] using pushed
  have shrinks {q : Register} {w : ValueId} (occupied : c'.registers.occupant? q = some w) :
      c.registers.occupant? q = some w := by
    have before := occupant?_emptied range occupied
    exact (hands.aside.occupant q).symm.trans before
  have is_known : slot.Known c' := by
    intro frame in_frame
    rw [leads.frames]
    exact hands.frame_lt in_frame
  refine ⟨⟨leads, locked, ⟨_, code, ⟨range, is_known⟩, trivial, trivial⟩, fun _ _ => known.mpr,
    fun _ => shrinks⟩, sorted.after leads held shrinks fun _ _ _ => known.mpr, ?_, fun found' => ?_⟩
  · simp [c', occupant?_setOccupant, range]
  · simp only [c', ValueStore.get?_modify, ↓reduceIte] at found'
    obtain ⟨_, _, rfl⟩ := Option.map_eq_some_iff.mp found'
    exact ⟨slot, rfl⟩

theorem gives_vacateVia {scratch : Gen Register}
    (gives_scratch : ∀ {c}, Gives S (.quiet into) c scratch fun r _ => r.IsInt) (r : Register) :
    Gives S (.quiet into) c (vacateVia scratch r) fun _ c' => c'.registers.occupant? r = none := by
  have unbound {c : Context} : Gives S (.quiet into) c (discard (unbindRegister r))
      fun _ c' => c'.registers.occupant? r = none :=
    (gives_discard (gives_unbindRegister r)).imp fun _ _ ⟨_, q⟩ => q.2
  refine gives_occupantOf ?_
  cases occupied : c.registers.occupant? r with
  | none => exact gives_inconsistent _
  | some v =>
    refine gives_valueOf fun {value} found => gives_ite (fun _ => unbound) fun _ => ?_
    refine gives_ite (fun _ => ?_) fun unnamed => ?_
    · have range := inRange_of_occupant? occupied
      exact gives_seq (writes_writeBackVia gives_scratch v range) unbound
    · exact (gives_spill found (by simpa using unnamed) (.inl occupied)).imp
        fun _ _ spilled => spilled.1

theorem gives_obtainRegister (bank : Bank) :
    Gives S (.quiet into) c (obtainRegister bank) fun r c' => c.Offers bank r c' := by
  intro r c' sorted run
  refine obtainRegister_induction
    (P := fun bank c r c' => c.Sorted S into →
      Wrote S (.quiet into) c c' ∧ c'.Sorted S into ∧ c.Offers bank r c')
    ?free ?drop ?evict run sorted
  case free =>
    intro bank c r chosen sorted
    obtain ⟨is_bank, range, empty, unlocked⟩ := mem_free.mp (choose_cases chosen)
    exact ⟨.refl _ _, sorted, is_bank, range, unlocked, empty⟩
  case drop =>
    intro bank c r v c' chosen unbound sorted
    obtain ⟨_, _, member, _⟩ := choose_cases chosen
    obtain ⟨is_bank, occupied, unlocked⟩ := mem_candidates.mp member
    obtain ⟨wrote, sorted', _, empty⟩ := gives_unbindRegister r _ _ sorted unbound
    exact ⟨wrote, sorted', is_bank, inRange_of_occupant? occupied, unlocked, empty⟩
  case evict =>
    intro bank c r c' scratch chosen inner vacated sorted
    obtain ⟨_, member⟩ := choose_cases chosen
    obtain ⟨is_bank, occupied, unlocked⟩ := mem_candidates.mp member
    have gives_scratch {c : Context} : Gives S (.quiet into) c scratch fun r _ => r.IsInt := by
      intro q c' sorted taken
      obtain ⟨wrote, sorted', offers⟩ := inner taken sorted
      exact ⟨wrote, sorted', offers.isInt⟩
    obtain ⟨wrote, sorted', empty⟩ := gives_vacateVia gives_scratch r _ _ sorted vacated
    exact ⟨wrote, sorted', is_bank, inRange_of_occupant? occupied, unlocked, empty⟩

theorem gives_pointer : Gives S (.quiet into) c (obtainRegister .int) fun r _ => r.IsInt :=
  (gives_obtainRegister .int).imp fun _ _ offers => offers.isInt

theorem writes_store (ty : Ty) (range : src.inRange = true) (known : target.Known c)
    (own : ∀ {dst}, target = .register dst → dst = src) :
    Writes S (.quiet into) c (store src target ty) :=
  writes_storeVia gives_pointer ty range known own

theorem writes_writeBack (v : ValueId) (range : r.inRange = true) :
    Writes S (.quiet into) c (writeBack v r) := writes_writeBackVia gives_pointer v range

theorem gives_vacate (r : Register) :
    Gives S (.quiet into) c (vacate r) fun _ c' => c'.registers.occupant? r = none :=
  gives_vacateVia gives_pointer r

theorem writes_flush (v : ValueId) : Writes S (.quiet into) c (flush v) := by
  refine gives_of fun sorted => gives_valueOf fun {value} found => ?_
  refine gives_ite (fun _ => ?_) fun _ => gives_pure _ trivial
  cases located : value.register? with
  | none => exact gives_inconsistent _
  | some r =>
    obtain ⟨_, _, range⟩ := sorted.register_of found (Value.position_of_register? located)
    exact writes_holding (writes_writeBack v range)

theorem writes_flushAll : Writes S (.quiet into) c flushAll := by
  refine gives_get (gives_seq (writes_forIn (fun occupied _ _ => ?_) _) (gives_pure _ trivial))
  exact gives_seq (writes_flush occupied.2) (gives_pure _ trivial)

theorem writes_unbindRegister (r : Register) : Writes S (.quiet into) c (unbindRegister r) :=
  (gives_unbindRegister r).writes

theorem writes_releaseEscaped : Writes S (.quiet into) c releaseEscaped := by
  refine gives_get (gives_seq (writes_forIn (fun occupied _ _ => ?_) _) (gives_pure _ trivial))
  refine gives_valueOf fun _ => gives_ite (fun _ => ?_) fun _ => gives_pure _ trivial
  exact gives_seq (writes_flush _)
    (gives_seq (writes_discard (writes_unbindRegister _)) (gives_pure _ trivial))

theorem writes_vacateAll : Writes S (.quiet into) c vacateAll := by
  refine gives_get (gives_seq (writes_forIn (fun occupied _ _ => ?_) _) (gives_pure _ trivial))
  refine gives_occupantOf (gives_ite (fun _ => ?_) fun _ => gives_pure _ trivial)
  exact gives_seq (gives_vacate _).writes (gives_pure _ trivial)

theorem writes_dropAll (strict : Bool) : Writes S (.quiet into) c (dropAll strict) := by
  refine gives_get (gives_seq (writes_forIn (fun occupied _ _ => ?_) _) (gives_pure _ trivial))
  refine gives_valueOf fun _ => gives_ite (fun _ => gives_throw_then _) fun _ => ?_
  exact gives_seq (writes_discard (writes_unbindRegister _)) (gives_pure _ trivial)

theorem writes_settleAtJoin : Writes S (.quiet into) c settleAtJoin :=
  gives_seq writes_flushAll (writes_dropAll true)

theorem writes_retireOccupant (v : ValueId) : Writes S (.quiet into) c (retireOccupant v) := by
  refine gives_valueOf fun {value} _ => ?_
  cases value.named? with
  | none => exact gives_pure _ trivial
  | some named =>
    refine gives_ite (fun _ => ?_) fun _ => gives_pure _ trivial
    exact gives_ite (fun _ => writes_setDirty v false) fun _ => writes_flush v

theorem writes_retireRegisters : Writes S (.quiet into) c retireRegisters := by
  refine gives_get (gives_seq (writes_forIn (fun occupied _ _ => ?_) _) (writes_dropAll false))
  exact gives_seq (writes_retireOccupant _) (gives_pure _ trivial)

theorem writes_markDirty (v : ValueId) : Writes S (.quiet into) c (markDirty v) :=
  gives_seq (writes_setDirty v true) (writes_touch v)

theorem gives_settle (v : ValueId) :
    Gives S (.quiet into) c (settle v) fun place c' => place.Known c'
    ∧ place.isRegister = false := by
  refine gives_of fun sorted => gives_valueOf fun {value} found => ?_
  refine gives_ite (fun _ => ?_) fun unnamed => gives_ite (fun _ => gives_throw_then _) fun _ => ?_
  · refine gives_bind (gives_homeOf v) fun {home _} _ is_home => ?_
    refine gives_bind (writes_flush v) fun wrote _ => gives_pure _ ?_
    exact ⟨is_home.1.mono wrote.leads, is_home.2⟩
  cases pos : value.position with
  | none => exact gives_inconsistent _
  | some place =>
    have known := sorted.place_known found (.inl pos)
    cases place with
    | register r =>
      refine gives_bind (gives_spill found (by simpa using unnamed) (.inr pos)) fun _ spilled => ?_
      refine gives_of fun sorted1 => gives_valueOf fun {settled} found1 => ?_
      obtain ⟨slot, is_slot⟩ := spilled.2 found1
      simp only [is_slot]
      exact gives_pure _ ⟨sorted1.place_known found1 (.inl is_slot), rfl⟩
    | _ => exact gives_pure _ ⟨known, rfl⟩

theorem Gives.calmed (gives : Gives S (.loading dst) c x Q)
    (unlocked : c.registers.isLocked dst = false) (empty : c.registers.occupant? dst = none) :
    Gives S .calm c x fun a c' => Q a c' ∧ c'.registers.occupant? dst = none := by
  intro a c' sorted run
  obtain ⟨wrote, sorted', q⟩ := gives a c' (sorted.owing _) run
  have still_empty : c'.registers.occupant? dst = none := by
    cases occupied : c'.registers.occupant? dst with
    | none => rfl
    | some v => cases empty.symm.trans (wrote.shrinks rfl occupied)
  exact ⟨wrote.calmed unlocked, sorted'.settled still_empty, q, still_empty⟩

theorem Gives.loaded (dst : Register) (gives : Gives S (.loading dst) c x Q)
    (holds : ∀ {a c' v}, Q a c' → dst.bank = .float → c'.registers.occupant? dst = some v →
      c.registers.occupant? dst = some v → S.Tracks v → c'.Knows S.toFlow dst) :
      Gives S .working c x Q := by
  intro a c' sorted run
  obtain ⟨wrote, sorted', q⟩ := gives a c' (sorted.owing _) run
  refine ⟨⟨wrote.leads, wrote.locked, wrote.code, nofun, nofun⟩,
    ⟨sorted'.held, sorted'.begun, ?_⟩, q⟩
  intro r v float _ occupied tracks
  by_cases same : dst = r
  · subst same
    exact holds q float occupied (wrote.shrinks rfl occupied) tracks
  · exact sorted'.singles float (by simpa [Mode.loading] using same) occupied tracks

theorem writes_scratch {bank : Bank} {block : Register → Gen α}
    (inner : ∀ {r c1}, Leads c c1 → c.Offers bank r c1 → c1.Sorted S none →
      Writes S (.loading r) (c1.withLock r true) (block r)) :
    Writes S .calm c (obtainRegister bank >>= fun r => holding r (block r)) := by
  refine gives_quietly (gives_obtainRegister bank) fun {r c1} wrote offers =>
    gives_of fun sorted => ?_
  have unlocked := (wrote.isLocked r).trans offers.unlocked
  exact ((writes_holding (inner wrote.leads offers sorted)).calmed unlocked offers.empty).writes

theorem writes_canonicalize (range : r.inRange = true) (ty : Ty) :
    Writes S (.quiet into) c (canonicalize r ty) := by
  refine gives_ite (fun narrow => ?_) fun _ => gives_pure _ trivial
  have int : r.IsInt := ⟨narrow.1, range⟩
  exact gives_ite (fun _ => writes_silent rfl int trivial fun _ => id)
    fun _ => writes_silent rfl int trivial fun _ => id

theorem gives_narrowFloat (range : r.inRange = true) (ty : Ty) :
    Gives S (.quiet into) c (narrowFloat r ty) fun _ c' => r.bank = .float → ty.isSingle = true →
      c'.Knows S.toFlow r := by
  refine gives_ite (fun narrow => ?_) fun wide => gives_pure _ fun float single => ?_
  · refine Gives.imp (gives_silent rfl ⟨narrow.1, range⟩ trivial fun _ => .inr) ?_
    exact fun _ _ known _ _ => (known.2 r).mpr (.inl rfl)
  · exact (wide ⟨float, isSingle_iff.mp single⟩).elim

theorem gives_load (range : dst.inRange = true) (known : source.Known c)
    (memory : source.isRegister = false) :
    Gives S (.loading dst) c (load dst source ty) fun _ c' => dst.bank = .float → ty.size = 4 →
      c'.Knows S.toFlow dst := by
  have fitted {c : Context} (single : ty.size = 4 → c.Knows S.toFlow dst) :
      Gives S (.loading dst) c (canonicalize dst ty) fun _ c' => dst.bank = .float → ty.size = 4 →
        c'.Knows S.toFlow dst := gives_keeping (writes_canonicalize range ty) fun _ => single
  have through : Gives S (.loading dst) c (do
      holding dst do
        let ptr ← obtainRegister .int
        loadAddress ptr source
        emit (.loadPtr dst ptr ty.size.toUInt8)
      canonicalize dst ty) fun _ c' => dst.bank = .float → ty.size = 4 → c'.Knows S.toFlow dst := by
    refine gives_bind (Q := fun _ c' => ty.size = 4 → c'.Knows S.toFlow dst) ?_
      fun _ single => fitted single
    refine gives_holding ?_ fun _ _ single => single
    refine gives_quietly gives_pointer fun {ptr c1} wrote int => ?_
    refine gives_quietly (writes_loadAddress int (known.mono ?_)) fun _ _ => ?_
    · exact (Leads.withLock c dst true).trans wrote.leads
    · refine Gives.imp (gives_into rfl ⟨range, int⟩ trivial fun other => ?_)
        fun _ _ known four => ?_
      · simp [Instr.conveys, other]
      · rw [known.2]
        simp [Instr.conveys, four]
  unfold load
  cases source with
  | register src => cases memory
  | stack slot =>
    refine gives_bind (gives_into rfl ⟨range, known⟩ trivial fun other => ?_)
      fun _ known => fitted ?_
    · simp [Instr.conveys, other]
    · intro four
      rw [known.2]
      simp [Instr.conveys, four]
  | static offset => exact through
  | constant id => exact through

theorem gives_move (range : dst.inRange = true) (range' : src.inRange = true)
    (bank : dst.bank = src.bank) :
    Gives S (.loading dst) c (if src ≠ dst then emit (.mov dst src) else pure ()) fun _ c' =>
      c.Knows S.toFlow src → c'.Knows S.toFlow dst := by
  refine gives_ite (fun _ => ?_) fun same => gives_pure _ ?_
  · refine Gives.imp (gives_into rfl ⟨range, range', bank⟩ trivial fun other => ?_)
      fun _ _ known single => ?_
    · simp [Instr.conveys, other]
    · rw [known.2]
      simpa [Instr.conveys] using single
  · rw [not_not.mp same]
    exact id

theorem gives_loadConstant (range : dst.inRange = true) (sorted : c.Sorted S none) (bits : Word) :
    Gives S (.loading dst) c (loadConstant dst bits) fun _ c' => dst.bank = .float →
      S.precise → S.single bits → c'.Knows S.toFlow dst := by
  have held (occupied : List (Register × ValueId)) :
      Gives S (.loading dst) c (holderOf bits occupied)
      fun holder c' => c' = c ∧ ∀ r v, holder = some (r, v) → (r, v) ∈ occupied
        ∧ ∃ value, c.values.get? v = some value ∧ value.constant? = some bits := by
    intro holder c' sorted run
    obtain ⟨rfl, held⟩ := runs_holderOf run
    exact ⟨.refl _ _, sorted, rfl, held⟩
  refine gives_get (gives_bind (held _) ?_)
  rintro holder _ _ ⟨rfl, holds⟩
  cases holder with
  | none =>
    refine Gives.imp (gives_into rfl ⟨range, trivial⟩ trivial fun other => ?_)
      fun _ _ known _ _ single => ?_
    · simp [Instr.conveys, other]
    · rw [known.2]
      simpa [Instr.conveys] using single
  | some holder =>
    obtain ⟨r, w⟩ := holder
    obtain ⟨member, value, found, is_bits⟩ := holds r w rfl
    obtain ⟨bank, occupied⟩ := mem_occupied.mp member
    refine gives_quietly (writes_touch w) fun wrote _ => ?_
    refine (gives_move range (inRange_of_occupant? occupied) bank.symm).imp ?_
    intro _ _ _ _ moved float precise single
    have float' : r.bank = .float := bank.trans float
    have tracks : S.Tracks w :=
      ⟨precise, .inr ⟨bits, by rw [← (sorted.banked.typed found).2, is_bits], single⟩⟩
    exact moved (wrote.spares float' trivial (sorted.singles float' nofun occupied tracks))

theorem gives_loadValue (bank : dst.bank = (S.types v).bank) (range : dst.inRange = true)
    (sorted : c.Sorted S none) :
    Gives S (.loading dst) c (loadValue dst v) fun _ c' => dst.bank = .float → S.Tracks v →
      c'.Knows S.toFlow dst := by
  refine gives_valueOf fun {value} found => ?_
  obtain ⟨is_type, is_constant⟩ := sorted.banked.typed found
  cases constant : value.constant? with
  | some bits =>
    refine (gives_loadConstant range sorted bits).imp fun _ _ known float tracks => ?_
    obtain ⟨precise, single | ⟨_, same, single⟩⟩ := tracks
    · exact known float precise (S.rounded precise (is_constant.symm.trans constant) single)
    · obtain rfl := Option.mem_unique same (is_constant.symm.trans constant)
      exact known float precise single
  | none =>
    have touched {x : Gen Unit}
        (loaded : Gives S (.loading dst) c x fun _ c' => dst.bank = .float → S.Tracks v →
          c'.Knows S.toFlow dst) :
        Gives S (.loading dst) c (x >>= fun _ => touch v) fun _ c' =>
          dst.bank = .float → S.Tracks v →
          c'.Knows S.toFlow dst :=
      gives_bind loaded fun _ known => gives_keeping (writes_touch v) known
    have from_memory {place : Position} (pos : value.position = some place)
        (memory : place.isRegister = false) :
        Gives S (.loading dst) c (do
          if !value.ty.fitsRegister then
            inconsistent (.tooWide v value.description value.ty dst)
          load dst place value.ty
          touch v) fun _ c' => dst.bank = .float → S.Tracks v → c'.Knows S.toFlow dst := by
      refine gives_ite (fun _ => gives_throw_then _) fun _ => touched ?_
      refine (gives_load range (sorted.place_known found (.inl pos)) memory).imp ?_
      intro _ _ _ _ known float tracks
      obtain ⟨_, single | ⟨_, same, _⟩⟩ := tracks
      · exact known float (is_type ▸ (isSingle_iff.mp single).2)
      · cases same.symm.trans (is_constant.symm.trans constant)
    cases pos : value.position with
    | none => exact gives_throw_then _
    | some place =>
      cases place with
      | register src =>
        obtain ⟨occupied, bank', range'⟩ := sorted.register_of found pos
        have same_bank : dst.bank = src.bank := by rw [bank, bank', is_type]
        refine gives_ite_then (touched ((gives_move range range' same_bank).imp ?_))
        intro _ _ _ _ moved float tracks
        exact moved (sorted.singles (same_bank.symm.trans float) nofun occupied tracks)
      | _ => exact from_memory pos rfl

theorem writes_copyMemory (known : target.Known c) (known' : source.Known c) :
    Writes S .calm c (copyMemory target source ty) := by
  have through (memory : source.isRegister = false) (memory' : target.isRegister = false) :
      Writes S .calm c (copyThrough target source ty) := by
    refine gives_ite (fun _ => writes_scratch fun {r c1} leads offers _ => ?_) fun _ => of_quiet ?_
    · have later := leads.trans (.withLock c1 r true)
      refine gives_bind (gives_load offers.range (known'.mono later) memory)
        fun wrote _ => of_quiet ?_
      refine writes_store ty offers.range (known.mono (later.trans wrote.leads)) ?_
      rintro dst rfl
      cases memory'
    · refine gives_bind gives_pointer fun {dst c1} first int => writes_holding ?_
      have later1 := first.leads.trans (.withLock c1 dst true)
      refine gives_bind (writes_loadAddress int (known.mono later1)) fun second _ => ?_
      refine gives_bind gives_pointer fun {src c2} third int' => writes_holding ?_
      have later2 := later1.trans (second.leads.trans (third.leads.trans (.withLock c2 src true)))
      refine gives_seq (writes_loadAddress int' (known'.mono later2)) ?_
      exact writes_silent rfl ⟨int, int'⟩ trivial fun _ => id
  unfold copyMemory
  refine gives_ite (fun _ => gives_throw_then _) fun memory => ?_
  simp only [Bool.or_eq_true, not_or, Bool.not_eq_true] at memory
  cases target <;> cases source <;> try exact through memory.2 memory.1
  next dst src => exact of_quiet (writes_silent rfl ⟨known, known'⟩ trivial fun _ => id)

theorem writes_copyTo (known : target.Known c) (memory : target.isRegister = false) :
    Writes S .calm c (copyTo v target ty) := by
  have own {r dst : Register} (is_register : target = .register dst) : dst = r := by
    subst is_register
    cases memory
  cases target with
  | register dst => cases memory
  | _ =>
    refine gives_of fun sorted => gives_valueOf fun {value} found => ?_
    split
    · refine writes_scratch fun {r c1} leads offers sorted => ?_
      have later := leads.trans (.withLock c1 r true)
      refine gives_bind (gives_loadConstant offers.range (sorted.withLock r true) _)
        fun wrote _ => ?_
      exact of_quiet (writes_store ty offers.range (known.mono (later.trans wrote.leads)) own)
    · next src _ pos =>
      obtain ⟨_, _, range⟩ := sorted.register_of found pos
      refine gives_quietly (writes_touch v) fun wrote _ => of_quiet ?_
      exact writes_store ty range (known.mono wrote.leads) own
    · next source _ pos =>
      refine gives_ite (fun _ => ?_) fun _ => gives_pure _ trivial
      exact writes_copyMemory known (sorted.place_known found (.inl pos))
    · exact gives_inconsistent _

theorem writes_copyAddress (known : target.Known c)
    (int : ∀ {dst}, target = .register dst → dst.IsInt) :
    Writes S (.quiet into) c (copyAddress v target) := by
  refine gives_bind (gives_settle v) fun {home c1} first is_home => ?_
  have supplied : Gives S (.quiet into) c1 (targetRegister target .int) fun r _ =>
      r.IsInt ∧ ∀ {dst}, target = .register dst → dst = r := by
    cases target with
    | register dst => exact gives_pure _ ⟨int rfl, fun same => (Position.register.inj same).symm⟩
    | _ => exact gives_pointer.imp fun _ _ int => ⟨int, nofun⟩
  refine gives_bind supplied fun {r c2} second is_target => writes_holding ?_
  have later := second.leads.trans (.withLock c2 r true)
  refine gives_bind (writes_loadAddress is_target.1 (is_home.1.mono later)) fun third _ => ?_
  exact writes_store .u64 is_target.1.2 (known.mono (first.leads.trans (later.trans third.leads)))
    is_target.2

/-- A value of the one type can be copied to where one of the other is expected. -/
def Ty.Suits (source ty : Ty) : Prop :=
  (source.isArray && ty.isPointer) = true ∨ (source.isScalar && ty.isScalar) = true
    ∨ source.bank = ty.bank

theorem gives_copyFitted {source : Ty} (is_source : source = S.types v) (bank : r.bank = ty.bank)
    (same : source.bank = ty.bank) (range : r.inRange = true) (sorted : c.Sorted S none)
    (known : target.Known c) (own : ∀ {dst}, target = .register dst → dst = r) :
    Gives S (.loading r) c (do
      loadValue r v
      if ty.isBool && !source.isBool then
        emit (.cmpImm r 0 .ne)
      else if source.isFloat then
        if target.isRegister && ty.size < source.size then narrowFloat r ty
      else if ty.size < source.size || target.isRegister then
        canonicalize r ty
      store r target ty) fun _ c' => r.bank = .float →
        target.isRegister = true ∧ S.precise ∧ ty.isSingle = true → c'.Knows S.toFlow r := by
  refine gives_bind (gives_loadValue (by rw [bank, ← same, is_source]) range sorted)
    fun first loaded => ?_
  have stored {c1 : Context} (leads : Leads c c1)
      (single : r.bank = .float → target.isRegister = true ∧ S.precise ∧ ty.isSingle = true →
        c1.Knows S.toFlow r) :
      Gives S (.loading r) c1 (store r target ty) fun _ c' => r.bank = .float →
        target.isRegister = true ∧ S.precise ∧ ty.isSingle = true → c'.Knows S.toFlow r :=
    gives_keeping (writes_store ty range (known.mono leads) own) single
  refine gives_ite (fun to_bool => ?_) fun _ => gives_ite (fun float => ?_) fun not_float => ?_
  · rw [Bool.and_eq_true] at to_bool
    have int : r.IsInt := ⟨bank.trans (bank_of_isBool to_bool.1), range⟩
    refine gives_quietly (writes_silent rfl int trivial fun _ => id) fun second _ => ?_
    exact stored (first.leads.trans second.leads) fun float => (int.ne float rfl).elim
  · refine gives_ite (fun _ => ?_) fun wide => stored first.leads fun is_float asked => ?_
    · refine gives_quietly (gives_narrowFloat range ty) fun second narrowed => ?_
      exact stored (first.leads.trans second.leads) fun is_float asked =>
        narrowed is_float asked.2.2
    · -- What is not narrowed has the width of a single already.
      have four := (isSingle_iff.mp asked.2.2).2
      have is_wide : ¬ty.size < source.size := by simpa [asked.1] using wide
      have size : source.size = 4 := by
        have := S.widths asked.2.1 (is_source ▸ float)
        rw [← is_source] at this
        omega
      exact loaded is_float ⟨asked.2.1, .inl (is_source ▸ isSingle_iff.mpr ⟨float, size⟩)⟩
  · have int : r.bank = .int := by rw [bank, ← same, Ty.bank, if_neg not_float]
    have no_float {P : Prop} (float : r.bank = .float) : P := by cases int.symm.trans float
    refine gives_ite (fun _ => ?_) fun _ => stored first.leads no_float
    refine gives_quietly (writes_canonicalize range ty) fun second _ => ?_
    exact stored (first.leads.trans second.leads) no_float

theorem gives_copyConverted (bank : dst.bank = ty.bank) (range : dst.inRange = true)
    (sorted : c.Sorted S none) (suits : (S.types v).Suits ty) :
    Gives S (.loading dst) c (copyConverted v (.register dst) ty) fun _ c' => dst.bank = .float →
      S.precise ∧ ty.isSingle = true → c'.Knows S.toFlow dst := by
  refine gives_valueOf fun {value} found => ?_
  obtain ⟨is_type, _⟩ := sorted.banked.typed found
  rw [← is_type] at suits
  refine gives_ite (fun address => ?_) fun no_address => ?_
  · rw [Bool.and_eq_true] at address
    have int : dst.IsInt := ⟨by rw [bank, bank_of_isPointer address.2], range⟩
    have quiet : Writes S (.quiet (Mode.loading dst).into) c (copyAddress v (.register dst)) := by
      refine writes_copyAddress trivial ?_
      rintro _ ⟨⟩
      exact int
    exact of_quiet (quiet.imp fun _ _ _ float => (int.ne float rfl).elim)
  refine gives_ite (fun _ => gives_unsupported_then _) fun banks => ?_
  refine gives_ite (fun _ => gives_unsupported_then _) fun sizes => ?_
  have same : value.ty.bank = ty.bank := by
    rcases suits with address | scalar | same
    · exact (no_address address).elim
    · simpa [scalar] using banks
    · exact same
  refine gives_ite (fun plain => ?_) fun _ => ?_
  · refine (gives_loadValue (by rw [bank, ← same, is_type]) range sorted).imp ?_
    intro _ _ _ _ loaded is_float asked
    obtain ⟨float, four⟩ := isSingle_iff.mp asked.2
    have size : value.ty.size = ty.size := by
      by_cases scalar : (value.ty.isScalar && ty.isScalar) = true
      · simp only [scalar, Bool.not_true, Bool.false_or, Bool.and_eq_true, beq_iff_eq] at plain
        exact plain.2.1
      · simpa [scalar] using sizes
    have is_float' := isFloat_of_bank (same.trans (bank.symm.trans is_float))
    exact loaded is_float ⟨asked.1, .inl (is_type ▸ isSingle_iff.mpr ⟨is_float', size.trans four⟩)⟩
  · refine gives_holdingRegisterOf (fun {c1} locks => ?_) fun _ _ known => known
    refine gives_pure_bind dst (gives_holding ?_ fun _ _ known => known)
    refine Gives.imp
      (gives_copyFitted is_type bank same range ((sorted.locks locks).withLock _ true)
      trivial ?_) ?_
    · exact fun same => (Position.register.inj same).symm
    · exact fun _ _ known float asked => known float ⟨rfl, asked⟩

theorem writes_copyConverted (known : target.Known c) (memory : target.isRegister = false)
    (suits : (S.types v).Suits ty) : Writes S .calm c (copyConverted v target ty) := by
  have own {r dst : Register} (is_register : target = .register dst) : dst = r := by
    subst is_register
    cases memory
  refine gives_of fun sorted => gives_valueOf fun {value} found => ?_
  obtain ⟨is_type, _⟩ := sorted.banked.typed found
  rw [← is_type] at suits
  refine gives_ite (fun _ => of_quiet (writes_copyAddress known ?_)) fun no_address => ?_
  · rintro dst rfl
    cases memory
  refine gives_ite (fun _ => gives_unsupported_then _) fun banks => ?_
  refine gives_ite (fun _ => gives_unsupported_then _) fun _ => ?_
  have same : value.ty.bank = ty.bank := by
    rcases suits with address | scalar | same
    · exact (no_address address).elim
    · simpa [scalar] using banks
    · exact same
  refine gives_ite (fun _ => writes_copyTo known memory) fun _ => ?_
  refine writes_holdingRegisterOf fun {c1} locks => ?_
  have known1 : target.Known c1 := known.mono locks.leads
  have obtained : targetRegister target ty.bank = obtainRegister ty.bank := by
    cases target with
    | register dst => cases memory
    | _ => rfl
  rw [obtained]
  refine writes_scratch fun {r c2} leads offers sorted => ?_
  have later := leads.trans (.withLock c2 r true)
  exact (gives_copyFitted is_type offers.bank same offers.range (sorted.withLock r true)
    (known1.mono later) own).writes

structure Register.Suits (r : Register) (ty : Ty) : Prop where
  bank : r.bank = ty.bank
  range : r.inRange = true

/-- The register has the contents of the value and belongs to nobody. -/
structure Scope.Copies (S : Scope) (v : ValueId) (r : Register) (c : Context) : Prop
    extends Register.Suits r (S.types v) where
  empty : c.registers.occupant? r = none
  single : r.bank = .float → S.Tracks v → c.Knows S.toFlow r

theorem gives_seat (found : c.values.get? v = some value) {f : Register → Gen α}
    {R : α → Context → Prop}
    (rest : ∀ {r c'}, r.Suits (S.types v) → c'.registers.occupant? r = some v →
      (∀ {q w}, c.registers.isLocked q = true → c'.registers.occupant? q = some w →
        c.registers.occupant? q = some w) → Gives S .working c' (f r) R) :
    Gives S .working c (do
      let r ← obtainRegister value.ty.bank
      loadValue r v
      bindRegister r v
      f r) R := by
  refine gives_of fun sorted => ?_
  rw [(sorted.banked.typed found).1]
  refine gives_quietly (gives_obtainRegister _) fun {r c1} first offers =>
    gives_of fun sorted1 => ?_
  have unlocked := (first.isLocked r).trans offers.unlocked
  refine gives_calmly
    ((gives_loadValue offers.bank offers.range sorted1).calmed unlocked offers.empty)
    fun second loaded => gives_bind (gives_bindRegister loaded.1) fun _ bound => ?_
  refine rest ⟨offers.bank, offers.range⟩ bound.1 fun {q w} locked occupied => ?_
  have other : q ≠ r := by
    rintro rfl
    cases offers.unlocked.symm.trans locked
  exact first.shrinks rfl (second.shrinks rfl ((bound.2.1 other).symm.trans occupied))

theorem gives_variableRegister (v : ValueId) : Gives S .working c (variableRegister v) fun r c' =>
    r.Suits (S.types v) ∧ (∀ {w}, c'.registers.occupant? r = some w → w = v)
      ∧ ∀ {q w}, c.registers.isLocked q = true → c'.registers.occupant? q = some w →
        c.registers.occupant? q = some w := by
  refine gives_of fun sorted => gives_valueOf fun {value} found => ?_
  cases located : value.register? with
  | some r =>
    obtain ⟨here, bank, range⟩ := sorted.register_of found (Value.position_of_register? located)
    refine gives_quietly (writes_touch v) fun first _ => gives_pure _ ?_
    refine ⟨⟨by rw [bank, (sorted.banked.typed found).1], range⟩, fun occupied => ?_, fun _ =>
      first.shrinks rfl⟩
    exact Option.mem_unique (first.shrinks rfl occupied) here
  | none =>
    refine gives_seat found fun suits here kept => gives_pure _ ⟨suits, fun occupied => ?_, kept⟩
    exact Option.mem_unique occupied here

theorem gives_useInRegister (v : ValueId) : Gives S .working c (useInRegister v) fun r c' =>
    r.Suits (S.types v) ∧ ∀ {q w}, c.registers.isLocked q = true →
      c'.registers.occupant? q = some w → c.registers.occupant? q = some w := by
  rw [useInRegister_eq]
  refine gives_bind (gives_variableRegister v) fun _ taken => ?_
  refine gives_quietly (writes_discard (writes_consume v)) fun last _ => gives_pure _ ⟨taken.1, ?_⟩
  exact fun locked occupied => taken.2.2 locked (last.shrinks rfl occupied)

theorem gives_copyToRegister (v : ValueId) :
    Gives S .calm c (copyToRegister v) fun r c' => S.Copies v r c' := by
  refine gives_of fun sorted => gives_valueOf fun {value} found => ?_
  rw [(sorted.banked.typed found).1]
  refine gives_holdingRegisterOf (fun {c1} _ => ?_) fun q locked copies => ?_
  · refine gives_quietly (gives_obtainRegister _) fun {r c2} first offers =>
      gives_of fun sorted2 => ?_
    have unlocked := (first.isLocked r).trans offers.unlocked
    refine gives_bind
      ((gives_loadValue offers.bank offers.range sorted2).calmed unlocked offers.empty) ?_
    exact fun _ loaded => gives_pure _ ⟨⟨offers.bank, offers.range⟩, loaded.2, loaded.1⟩
  · exact ⟨copies.toSuits, by simpa [Context.withLock] using copies.empty, copies.single⟩

theorem Scope.Copies.quietly (copies : S.Copies v r c) (wrote : Wrote S (.quiet into) c c') :
    S.Copies v r c' where
  toSuits := copies.toSuits
  empty := by
    cases occupied : c'.registers.occupant? r with
    | none => rfl
    | some w => cases copies.empty.symm.trans (wrote.shrinks rfl occupied)
  single float tracks := wrote.spares float trivial (copies.single float tracks)

theorem gives_takeRegister (v : ValueId) :
    Gives S .calm c (takeRegister v) fun r c' => S.Copies v r c' := by
  have copied : Gives S .calm c (takeRegister.copied v) fun r c' => S.Copies v r c' := by
    refine gives_bind (gives_copyToRegister v) fun _ copies => ?_
    refine gives_quietly (writes_discard (writes_consume v)) fun last _ => ?_
    exact gives_pure _ (copies.quietly last)
  refine gives_of fun sorted => gives_valueOf fun {value} found => ?_
  cases located : value.register? with
  | none => exact copied
  | some r =>
    refine gives_ite (fun _ => ?_) fun _ => copied
    obtain ⟨here, bank, range⟩ := sorted.register_of found (Value.position_of_register? located)
    refine gives_quietly (writes_discard (writes_consume v)) fun first _ => ?_
    refine gives_quietly (gives_discard (gives_unbindRegister r)) fun second
      ⟨_, _, empty⟩ => gives_pure _ ?_
    refine ⟨⟨by rw [bank, (sorted.banked.typed found).1], range⟩, empty, fun float tracks => ?_⟩
    exact second.spares float
      trivial (first.spares float trivial (sorted.singles float nofun here tracks))

theorem gives_moveOccupant {source target : Register} (bank : target.bank = source.bank)
    (other : target ≠ source) : Gives S .working c (moveOccupant source target) fun _ c' =>
      c'.registers.occupant? source = none := by
  intro u c' sorted run
  obtain ⟨held, leads, locked⟩ := Discipline.walks_moveOccupant bank u c' sorted.held run
  obtain ⟨v, _, occupied, _, range, range', _, remarks, only, rfl⟩ := runs_moveOccupant run
  set c' : Context := { c with
    registers := (c.registers.setOccupant source none).setOccupant target (some v)
    values := (c.values.modify v ({ · with position := some (.register target) })).touch v
    code := c.code.push (.mov target source) ++ remarks }
  have known {q : Register} : c'.Knows S.toFlow q ↔
      if q = target then c.Knows S.toFlow source else c.Knows S.toFlow q := by
    have begun : S.since ≤ (c.pushed (.mov target source)).code.size :=
      sorted.begun.trans (by simp [Context.pushed])
    have appended := knows_appended begun (fun i member => (only i member).remark) q
    exact appended.trans (knows_pushed sorted.begun _ q)
  have occupant {q : Register} : c'.registers.occupant? q = if q = target then some v
      else if q = source then none else c.registers.occupant? q := by
    simp only [c', occupant?_setOccupant _ _ _ range', occupant?_setOccupant _ _ _ range]
  refine ⟨⟨leads, locked,
    ⟨.mov target source :: remarks, by simp [c'], ⟨range', range, bank⟩, trivial,
      ?_⟩, by rintro _ _ ⟨⟩, by rintro ⟨⟩⟩, ⟨held, sorted.begun.trans leads.code.length_le, ?_⟩,
    by simp [occupant, other.symm]⟩
  · exact clean_of_notes held.2.2 only _
  · intro q w float _ here tracks
    rw [known]
    rw [occupant] at here
    split at here
    · next is_target =>
      obtain rfl := Option.some.inj here
      rw [if_pos is_target]
      exact sorted.singles (by rw [← bank, ← is_target, float]) (by rintro ⟨⟩) occupied tracks
    · next not_target =>
      split at here
      · cases here
      · rw [if_neg not_target]
        exact sorted.singles float (by rintro ⟨⟩) here tracks

theorem gives_displace (r : Register) :
    Gives S .working c (displace r) fun _ c' => c'.registers.occupant? r = none := by
  refine gives_occupantOf
    (gives_ite (fun _ => gives_get ?_) fun empty => gives_pure _ (by simpa using empty))
  split
  · next other found =>
    have free := mem_free.mp (List.mem_of_find?_eq_some found)
    exact gives_moveOccupant free.1 (by simpa using List.find?_some found)
  · exact of_quiet (gives_vacate r)

end RegisterBackend
