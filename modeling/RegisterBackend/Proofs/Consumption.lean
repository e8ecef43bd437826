import RegisterBackend.Proofs.Operators
import RegisterBackend.Proofs.Spending

/-!
Every rule of lowering spends the operands of its operation, each as often as it occurs.
-/
namespace RegisterBackend

variable {c : Context} {r : Register}

theorem Value.isUnnamed_of_isNamed {value : Value} (named : value.isNamed = true) :
    value.isUnnamed = false := by
  cases h : value.kind <;> simp_all [isNamed, named?, isUnnamed]

/-- What is known of the values, looked up later, is known of them before. -/
def Context.Later (c c' : Context) : Prop :=
  ∀ ⦃v value'⦄, c'.values.get? v = some value' →
    ∃ value, c.values.get? v = some value ∧ value'.isUnnamed = value.isUnnamed

theorem Context.Spent.later {m : Manner} {c' : Context} {used : List ValueId}
    (spent : c.Spent m used c') : c.Later c' := by
  intro v value' found'
  cases found : c.values.get? v with
  | none => cases (spent.unknown found).symm.trans found'
  | some value =>
    obtain ⟨_, same, spent_v⟩ := spent.found found
    obtain rfl := Option.mem_unique found' same
    exact ⟨value, rfl, spent_v.unnamed⟩

namespace Gen

section
variable {α : Type} {m : Manner} {c' : Context} {v : ValueId} {value : Value} {next : Gen α}

theorem spends_loadConstant (dst : Register) (bits : Word) :
    Spends m c [] (loadConstant dst bits) := by
  refine spends_get (spends_look (mildly.holds_holderOf _ _) (fun run => (runs_holderOf run).1)
    fun {holder} _ => ?_)
  cases holder with
  | none => exact spends_emit _
  | some pair =>
    exact spends_seq (spends_touch _) (spends_ite (fun _ => spends_emit _) fun _ => spends_pure _)

theorem spends_giveAway (found : c.values.get? v = some value)
    (at_register : value.register? = some r) (last : value.references = 1)
    (rest : ∀ {c1}, c1.Owned → c.Spent m [v] c1 → Spends m c1 [] next) : Spends m c [v] (do
      discard (consume v)
      discard (unbindRegister r)
      next) := by
  refine spends_of_owned fun owned => ?_
  refine spends_before (spends_discard (spends_consume v)) fun {_ c1} run _ spent1 => ?_
  have released : Spends m c1 [] (discard (unbindRegister r)) := by
    refine spends_discard (spends_unbindRegister fun _ {w value'} occupied found' _ => ?_)
    obtain ⟨left, consumed⟩ := runs_discard.mp run
    obtain ⟨_, same, counted, rfl⟩ := runs_consume consumed
    obtain rfl := Option.mem_unique found same
    obtain rfl : v = w := Option.some.inj
      ((owned.owned found (Value.position_of_register? at_register)).symm.trans occupied)
    rw [ValueStore.get?_modify, if_pos rfl, found, Option.map_some, Option.some.injEq] at found'
    rw [← found']
    simp only
    omega
  exact spends_after released fun _ owned2 spent2 => rest owned2 (spent1.trans spent2)

/-- The register of a variable is its own, so nothing else is lost with it. -/
theorem spends_retake {used : List ValueId} (found : c.values.get? v = some value)
    (at_register : value.register? = some r)
    (named : ∀ {value}, c.values.get? v = some value → value.isUnnamed = false)
    (rest : ∀ {c'}, Spends m c' used next) : Spends m c used (do
      updateValue v (·.setDirty false)
      discard (unbindRegister r)
      next) := by
  refine spends_of_owned fun owned => spends_after (spends_setDirty v false)
    fun {_ c2} run _ spent => ?_
  refine spends_seq
    (spends_discard (spends_unbindRegister fun _ {w value'} occupied found' unnamed => ?_)) rest
  obtain ⟨_, rfl⟩ := runs_updateValue.mp run
  obtain rfl : v = w := Option.some.inj
    ((owned.owned found (Value.position_of_register? at_register)).symm.trans occupied)
  obtain ⟨_, same, spent_v⟩ := spent.found found
  obtain rfl := Option.mem_unique found' same
  rw [spent_v.unnamed, named found] at unnamed
  cases unnamed

theorem spends_displace (r : Register) : Spends .parting c [] (displace r) := by
  refine spends_occupantOf (spends_ite (fun _ => spends_get ?_) fun _ => spends_pure _)
  split
  · next other other_found =>
    have bank := (RegisterFile.mem_free.mp (List.mem_of_find?_eq_some other_found)).1
    refine spends_of_runs (Discipline.walks_moveOccupant bank)
      (mildly.holds_moveOccupant _ _) fun run => ?_
    obtain ⟨v, value, _, found, _, _, _, remarks, _, rfl⟩ := runs_moveOccupant run
    exact .seated found rfl (by simp)
  · exact spends_vacate r

end

def spending : Course where
  goes := Spends
  later := Context.Later
  sees _ _ _ := True
  ready _ _ := True
  isVariable c v := ∀ ⦃value⦄, c.values.get? v = some value → value.isUnnamed = false
  isWide _ _ := True
  admits _ := True
  places := True
  writes _ := True
  refuses _ := True
  writes_plain _ := trivial
  ready_later _ _ := trivial
  isVariable_later later named _ found := by
    obtain ⟨_, found', same⟩ := later found
    exact same.trans (named found')
  isWide_later _ _ := trivial
  goes_pure := spends_pure
  goes_stop routine := spends_throw (Fault.isUnderflow_of_isRoutine routine)
  goes_refuse _ := spends_throw rfl
  goes_bind first rest := spends_bind first fun _ _ spent => rest spent.later
  goes_perm := Spends.perm
  goes_holding inner := spends_holding (inner fun _ value' found => ⟨value', found, rfl⟩)
  goes_valueOf rest := spends_valueOf fun found => rest (fun _ value' found => ⟨value', found, rfl⟩)
    { found
      sees := trivial
      ready := fun _ => trivial
      isVariable := fun named _ found' => by
        obtain rfl := Option.mem_unique found found'
        exact Value.isUnnamed_of_isNamed named
      isWide := fun _ => trivial
      admits := fun _ _ => trivial }
  goes_overOccupied round rest := spends_get (spends_seq (spends_forIn (fun _ _ _ => round) _) rest)
  goes_emit _ _ _ := spends_emit _
  goes_copyMem _ := spends_seq (spends_loadAddress _ _) (spends_emit _)
  goes_loadAddress := spends_loadAddress
  goes_loadConstant := spends_loadConstant
  goes_touch := spends_touch
  goes_touchAndMark v := spends_seq (spends_touch v) (spends_markLocation v)
  goes_consume := spends_consume
  goes_setDirty := spends_setDirty
  goes_escape v := spends_update (Discipline.walks_escape v) .escaped
  goes_bindRegister r v binds _ := spends_bindRegister binds r v
  goes_loadAndBind binds loaded rest :=
    spends_seq loaded (spends_seq (spends_bindRegister binds _ _) rest)
  goes_giveAway found at_register last rest :=
    spends_giveAway found at_register last fun _ spent => rest spent.later
  goes_retake found at_register named rest :=
    spends_retake found at_register (fun found => named found) rest
  goes_homeOf rest :=
    spends_after (spends_homeOf _) fun _ _ spent => rest spent.later fun _ => trivial
  goes_rehome _ first second rest := spends_after (spends_homeOf _) fun granted owned _ => by
    obtain ⟨_, found, is_home⟩ := home?_of_homeOf granted
    exact spends_then first (spends_first second
      (spends_seq (spends_setPosition (owned.settled found is_home)) rest))
  goes_place _ := spends_setPosition rfl
  goes_allocateSlot := spends_allocateSlot
  goes_obtainRegister := spends_obtainRegister
  goes_store := spends_store
  goes_spill := spends_spill
  goes_flush := spends_flush
  goes_flushAll := spends_flushAll
  goes_releaseEscaped := spends_releaseEscaped
  goes_vacateAll := spends_vacateAll
  goes_displace := spends_displace
  goes_dropReferenced := spends_dropAll_strict
  goes_dropLast := spends_dropAll_parting
  -- No register is occupied when a call is written, so what comes after it drops nothing.
  goes_emptied called rest :=
    spends_after spends_vacateAll fun vacated owned _ => spends_before called fun run _ _ =>
    spends_seq (spends_dropAll_vacant (called.vacant owned run (empties_vacateAll vacated)) false)
      rest
  goes_addCall := spends_record _
  goes_addOperation _ := spends_record _
  goes_comment := spends_comment
  goes_setLocation := spends_setLocation

variable {functions : Array Declaration} {decl : Declaration}

theorem spends_retireRegisters : Spends .parting c [] retireRegisters :=
  spending.goes_retireRegisters

theorem spends_checkConsistency {m : Manner} : Spends m c [] checkConsistency := by
  refine spends_get ?_
  cases checked : c.check with
  | ok _ => exact spends_pure _
  | error fault =>
    exact spends_throw (Fault.isUnderflow_of_isRoutine (Context.isRoutine_of_check checked))

theorem spends_lowerItem (item : BodyItem) (isLast : Bool) :
    Spends item.operation.manner c item.operation.operands
    (lowerItem functions decl item isLast) := by
  have allowed : spending.Allows functions decl isLast item.operation :=
    spending.allows_of_free (fun _ => trivial) (fun _ => trivial) item.operation
  rw [lowerItem_eq]
  exact spends_first (spending.goes_lowerUnchecked allowed (fun _ => trivial) fun _ => trivial)
    (spends_get (spends_ite (fun _ => spends_checkConsistency) fun _ => spends_pure _))

end Gen

end RegisterBackend
