import RegisterBackend.Proofs.Consistency

/-!
The bookkeeping never contradicts itself. To be tidy is a discipline, so every rule keeps it,
provided that the results still to be made have no place yet.
-/
namespace RegisterBackend

open ValueStore Option RegisterFile Value

variable {f : Value → Value} {v : ValueId} {value : Value} {c c' c1 : Context}
  {home : Position} {q r : Register} {slot : StackSlot}

def Value.Claims (value : Value) (place : Position) : Prop :=
  place.isRegister = false ∧ (value.position = some place ∨ value.home? = some place)

namespace Context

def Grants (c : Context) (place : Position) : Prop :=
  ∃ cell, place.cell? = some cell ∧ cell.offset < c.extent cell.area

theorem Grants.mono {place : Position} (grows : ∀ area, c.extent area ≤ c'.extent area)
    (granted : c.Grants place) : c'.Grants place := by
  obtain ⟨cell, is_cell, inside⟩ := granted
  exact ⟨cell, is_cell, inside.trans_le (grows _)⟩

section
variable {size : Nat} {place : Position} (hands : c.Hands size place c')
include hands

theorem Hands.not_grants : ¬c.Grants place := by
  rintro ⟨cell, is_cell, inside⟩
  cases hands with
  | slot current known fits =>
    cases is_cell
    simp [extent, known] at inside
  | static after =>
    cases is_cell
    simp only [extent] at inside
    omega
  | blob =>
    cases is_cell
    simp [extent, ConstantPool.get?] at inside

theorem Hands.grants : c'.Grants place := by
  have words : 0 < alignUp (max size 1) wordSize :=
    Nat.lt_of_lt_of_le (by omega) (le_alignUp (max size 1) (by simp [wordSize]))
  cases hands with
  | slot current known fits =>
    refine ⟨_, rfl, ?_⟩
    simp only [extent, Frames.size?_withSize known, ↓reduceIte, getD_some]
    omega
  | static after =>
    refine ⟨_, rfl, ?_⟩
    simp only [extent]
    omega
  | blob =>
    refine ⟨_, rfl, ?_⟩
    simpa [extent, ConstantPool.get?] using words

end

structure Owned (c : Context) : Prop where
  owned : ∀ {v value r}, c.values.get? v = some value → value.position = some (.register r) →
    c.registers.occupant? r = some v
  settled : ∀ {v value home}, c.values.get? v = some value → value.home? = some home →
    home.isRegister = false

theorem changed_of_modify (found : c.values.get? v = some value)
    (values : c'.values = c.values.modify v f) {w : ValueId} {value' : Value}
    (found' : c'.values.get? w = some value') :
    w = v ∧ value' = f value ∨ w ≠ v ∧ c.values.get? w = some value' := by
  rw [values, get?_modify] at found'
  split at found'
  · next same =>
    rw [found, map_some] at found'
    exact .inl ⟨same, (Option.some.inj found').symm⟩
  · next other => exact .inr ⟨other, found'⟩

theorem Owned.modify (owned : c.Owned) (found : c.values.get? v = some value)
    (values : c'.values = c.values.modify v f)
    (home : ∀ {place}, (f value).home? = some place → place.isRegister = false)
    (own : ∀ {r}, (f value).position = some (.register r) → c'.registers.occupant? r = some v)
    (others : ∀ {w r}, w ≠ v → c.registers.occupant? r = some w →
      c'.registers.occupant? r = some w) :
    c'.Owned := by
  refine ⟨fun found' pos => ?_, fun found' is_home => ?_⟩
  · obtain ⟨rfl, rfl⟩ | ⟨other, found'⟩ := changed_of_modify found values found'
    · exact own pos
    · exact others other (owned.owned found' pos)
  · obtain ⟨rfl, rfl⟩ | ⟨_, found'⟩ := changed_of_modify found values found'
    · exact home is_home
    · exact owned.settled found' is_home

structure Seats (c : Context) : Prop extends Owned c where
  seated : ∀ {r v}, c.registers.occupant? r = some v → ∃ value, c.values.get? v = some value
    ∧ value.position = some (.register r) ∧ value.ty.bank = r.bank
    ∧ (value.isNamed = true → value.ty.fitsRegister = true)

structure Divides (c : Context) : Prop where
  granted : ∀ {v value place}, c.values.get? v = some value → value.Claims place → c.Grants place
  distinct : ∀ {v w value other place}, c.values.get? v = some value →
    c.values.get? w = some other →
    value.Claims place → other.Claims place → v = w

/-- The bookkeeping says one thing about each register and each place. -/
structure Tidy (c : Context) : Prop extends Seats c, Divides c

theorem Tidy.check (tidy : c.Tidy) : c.check = .ok () := by
  refine check_ok_iff.mpr ⟨fun occupied => ?_, fun found pos => tidy.owned found pos, ?_⟩
  · obtain ⟨value, found, pos, bank, _⟩ := tidy.seated occupied
    exact ⟨value, found, pos, bank⟩
  · rintro v w value other place found found' ⟨pos, _⟩ ⟨pos', _⟩
    cases register : place.register? with
    | some r =>
      obtain rfl : place = .register r := by cases place <;> simp_all [Position.register?]
      exact mem_unique (tidy.owned found pos) (tidy.owned found' pos')
    | none =>
      have memory : place.isRegister = false := by simp [Position.isRegister, register]
      exact tidy.distinct found found' ⟨memory, .inl pos⟩ ⟨memory, .inl pos'⟩

theorem Seats.modify (seats : c.Seats) (found : c.values.get? v = some value)
    (values : c'.values = c.values.modify v f) (ty : (f value).ty = value.ty)
    (named : (f value).isNamed = value.isNamed)
    (home : ∀ {place}, (f value).home? = some place → place.isRegister = false)
    (fits : ∀ {r}, (f value).position = some (.register r) →
      value.ty.bank = r.bank ∧ (value.isNamed = true → value.ty.fitsRegister = true))
    (occupants : ∀ {q w}, c'.registers.occupant? q = some w ↔
      if w = v then (f value).position = some (.register q) else c.registers.occupant? q = some w) :
    c'.Seats where
  toOwned := seats.toOwned.modify found values home (fun pos => occupants.mpr (by rwa [if_pos rfl]))
    fun other occupied => occupants.mpr (by rwa [if_neg other])
  seated {q w} occupied := by
    rw [occupants] at occupied
    rw [values, get?_modify]
    split at occupied
    · next same =>
      subst same
      obtain ⟨bank, fit⟩ := fits occupied
      exact ⟨f value, by simp [found], occupied, by rw [ty, bank], by rw [named, ty]; exact fit⟩
    · next other =>
      rw [if_neg other]
      exact seats.seated occupied

theorem Divides.modify (divides : c.Divides) (found : c.values.get? v = some value)
    (values : c'.values = c.values.modify v f) (grows : ∀ area, c.extent area ≤ c'.extent area)
    (claims : ∀ {place}, (f value).Claims place → value.Claims place ∨ (c'.Grants place
      ∧ ∀ {w other}, c.values.get? w = some other → ¬other.Claims place)) : c'.Divides := by
  have before {w : ValueId} {value' : Value} {place : Position}
      (found' : c'.values.get? w = some value') (claim : value'.Claims place) :
      (∃ old, c.values.get? w = some old ∧ old.Claims place)
      ∨ (w = v ∧ c'.Grants place ∧ ∀ {w other}, c.values.get? w = some other →
        ¬other.Claims place) := by
    obtain ⟨rfl, rfl⟩ | ⟨_, found'⟩ := changed_of_modify found values found'
    · exact (claims claim).imp (fun old => ⟨value, found, old⟩) fun fresh => ⟨rfl, fresh⟩
    · exact .inl ⟨value', found', claim⟩
  constructor
  case granted =>
    intro w value' place found' claim
    obtain ⟨old, found_old, old_claim⟩ | ⟨_, granted, _⟩ := before found' claim
    · exact (divides.granted found_old old_claim).mono grows
    · exact granted
  case distinct =>
    intro u w first second place found_u found_w claim_u claim_w
    obtain ⟨old, found_old, old_claim⟩ | ⟨same, _, nobody⟩ := before found_u claim_u
    · obtain ⟨old', found_old', old_claim'⟩ | ⟨_, _, nobody⟩ := before found_w claim_w
      · exact divides.distinct found_old found_old' old_claim old_claim'
      · exact (nobody found_old old_claim).elim
    · obtain ⟨old', found_old', old_claim'⟩ | ⟨same', _, _⟩ := before found_w claim_w
      · exact (nobody found_old' old_claim').elim
      · rw [same, same']

end Context

/-- What lowering has still to do when a context is looked at. -/
structure Plan where
  /-- A slot that is kept for the result of the current operation. -/
  slot : Option StackSlot
  /-- The values that have no place yet. -/
  waiting : ValueId → Prop
  /-- The variables that no register can hold. -/
  wide : ValueId → Prop

/-- The context is tidy and has not run ahead of the plan. -/
structure Context.Follows (c : Context) (plan : Plan) : Prop extends c.Tidy where
  kept : ∀ {slot}, plan.slot = some slot → c.Grants (.stack slot)
    ∧ ∀ {v value}, c.values.get? v = some value → ¬value.Claims (.stack slot)
  waits : ∀ {v value}, plan.waiting v → c.values.get? v = some value → value.isUnplaced = true
  wide_iff : ∀ {v}, plan.wide v ↔ ∃ value, c.values.get? v = some value ∧ value.isNamed = true
    ∧ value.ty.fitsRegister = false

namespace Context.Follows
variable {plan : Plan}

section
variable (follows : c.Follows plan)
include follows

section
variable (found : c.values.get? v = some value)
include found

theorem wide_modify (values : c'.values = c.values.modify v f) (ty : (f value).ty = value.ty)
    (named : (f value).isNamed = value.isNamed) {w : ValueId} :
    plan.wide w ↔ ∃ value, c'.values.get? w = some value ∧ value.isNamed = true
    ∧ value.ty.fitsRegister = false := by
  rw [follows.wide_iff, values, get?_modify]
  by_cases same : w = v
  · subst same
    simp [found, ty, named]
  · simp [same]

theorem modify
    (values : c'.values = c.values.modify v f) (grows : ∀ area, c.extent area ≤ c'.extent area)
    (seats : c'.Seats) (ty : (f value).ty = value.ty) (named : (f value).isNamed = value.isNamed)
    (claims : ∀ {place}, (f value).Claims place →
      value.Claims place ∨ (c'.Grants place ∧ ¬c.Grants place))
    (reached : ¬plan.waiting v) : c'.Follows plan where
  toSeats := seats
  toDivides := follows.toDivides.modify found values grows fun claim => (claims claim).imp_right
    fun ⟨granted, fresh⟩ => ⟨granted, fun found' claim' => fresh (follows.granted found' claim')⟩
  kept {slot} is_kept := by
    obtain ⟨granted, nobody⟩ := follows.kept is_kept
    refine ⟨granted.mono grows, fun {w value'} found' claim => ?_⟩
    obtain ⟨rfl, rfl⟩ | ⟨_, found'⟩ := changed_of_modify found values found'
    · obtain old | ⟨_, fresh⟩ := claims claim
      · exact nobody found old
      · exact fresh granted
    · exact nobody found' claim
  waits {w value'} waiting found' := by
    rw [values, get?_modify, if_neg] at found'
    · exact follows.waits waiting found'
    · rintro rfl
      exact reached waiting
  wide_iff := follows.wide_modify found values ty named

theorem not_waiting (placed : value.isUnplaced = false) : ¬plan.waiting v := by
  intro waiting
  simp [follows.waits waiting found] at placed

theorem not_waiting_of_register (pos : value.position = some (.register r)) : ¬plan.waiting v :=
  follows.not_waiting found (by simp [isUnplaced, pos])

theorem not_waiting_of_named (named : value.isNamed = true) : ¬plan.waiting v := by
  refine follows.not_waiting found (Bool.eq_false_iff.mpr fun unplaced => ?_)
  simp [isNamed_of_isUnplaced unplaced] at named

theorem position_of_occupant (occupied : c.registers.occupant? r = some v) :
    value.position = some (.register r) := by
  obtain ⟨_, same, pos, _⟩ := follows.seated occupied
  rwa [mem_unique found same]

end

theorem aside (same : c.Aside c') : c'.Follows plan := by
  have later {w : ValueId} {value : Value} (found : c.values.get? w = some value) :
      ∃ value', c'.values.get? w = some value' ∧ value'.spot = value.spot := by
    have spots := same.spot w
    rwa [found, map_some, map_eq_some_iff] at spots
  simp only [Value.spot, Value.Spot.mk.injEq] at later
  have claims {value value' : Value} (pos : value.position = value'.position)
      (home : value.home? = value'.home?) {place : Position} (claim : value'.Claims place) :
      value.Claims place := by rwa [Value.Claims, pos, home]
  refine { seated := ?seated, owned := ?owned, settled := ?settled, granted := ?granted,
           distinct := ?distinct, kept := ?kept, waits := ?waits, wide_iff := ?wide_iff }
  case seated =>
    intro r w occupied
    rw [same.occupant] at occupied
    obtain ⟨value, found, pos, bank, fits⟩ := follows.seated occupied
    obtain ⟨value', found', ty, nature, pos', _⟩ := later found
    exact ⟨value', found', pos'.trans pos, ty ▸ bank,
      by rwa [isNamed_eq_of_nature nature, ty]⟩
  case owned =>
    intro w value' r found' pos
    obtain ⟨value, found, _, _, pos', _⟩ := same.before found'
    rw [same.occupant]
    exact follows.owned found (pos'.trans pos)
  case settled =>
    intro w value' home found' is_home
    obtain ⟨value, found, _, _, _, home'⟩ := same.before found'
    exact follows.settled found (home'.trans is_home)
  case granted =>
    intro w value' place found' claim
    obtain ⟨value, found, _, _, pos, home⟩ := same.before found'
    exact (follows.granted found (claims pos home claim)).mono same.extent
  case distinct =>
    intro u w first second place found_u found_w claim_u claim_w
    obtain ⟨_, found_u, _, _, position_u, home_u⟩ := same.before found_u
    obtain ⟨_, found_w, _, _, position_w, home_w⟩ := same.before found_w
    exact follows.distinct found_u found_w (claims position_u home_u claim_u)
      (claims position_w home_w claim_w)
  case kept =>
    intro slot is_kept
    obtain ⟨granted, nobody⟩ := follows.kept is_kept
    refine ⟨granted.mono same.extent, fun {w value'} found' claim => ?_⟩
    obtain ⟨value, found, _, _, pos, home⟩ := same.before found'
    exact nobody found (claims pos home claim)
  case waits =>
    intro w value' waiting found'
    obtain ⟨value, found, _, nature, pos, _⟩ := same.before found'
    have unplaced := follows.waits waiting found
    rwa [isUnplaced, isUnnamed_eq_of_nature nature, pos] at unplaced
  case wide_iff =>
    intro w
    rw [follows.wide_iff]
    constructor
    · rintro ⟨value, found, named, wide⟩
      obtain ⟨value', found', ty, nature, _⟩ := later found
      exact ⟨value', found', by rwa [isNamed_eq_of_nature nature], by rwa [ty]⟩
    · rintro ⟨value', found', named, wide⟩
      obtain ⟨value, found, ty, nature, _⟩ := same.before found'
      exact ⟨value, found, by rwa [isNamed_eq_of_nature nature], by rwa [ty]⟩

theorem relocate (found : c.values.get? v = some value)
    {pos : Option Position} (values : c'.values = c.values.modify v ({ · with position := pos }))
    (grows : ∀ area, c.extent area ≤ c'.extent area) (reached : ¬plan.waiting v)
    (target : pos.any Position.isRegister = true ∨ pos = value.home?
      ∨ ∃ place, pos = some place ∧ c'.Grants place ∧ ¬c.Grants place)
    (fits : ∀ {r}, pos = some (.register r) →
      value.ty.bank = r.bank ∧ (value.isNamed = true → value.ty.fitsRegister = true))
    (occupants : ∀ {q w}, c'.registers.occupant? q = some w ↔
      if w = v then pos = some (.register q) else c.registers.occupant? q = some w) :
    c'.Follows plan := by
  refine follows.modify found values grows ?_ rfl rfl (fun {place} claim => ?_) reached
  · exact follows.toSeats.modify found values rfl rfl (fun is_home => follows.settled found is_home)
      fits occupants
  obtain ⟨memory, here | home⟩ := claim
  · simp only at here
    rcases target with register | home | ⟨fresh, is_fresh, granted, free⟩
    · simp [here, memory] at register
    · exact .inl ⟨memory, .inr (home.symm.trans here)⟩
    · obtain rfl := mem_unique is_fresh here
      exact .inr ⟨granted, free⟩
  · exact .inl ⟨memory, .inr home⟩

theorem occupant_iff (found : c.values.get? v = some value) :
    c.registers.occupant? q = some v ↔ value.position = some (.register q) :=
  ⟨follows.position_of_occupant found, follows.owned found⟩

end

section
variable (follows : c.Follows plan)
include follows

theorem seat (reached : ¬plan.waiting v) (narrow : ¬plan.wide v)
    (found : c.values.get? v = some value) (bank : value.ty.bank = r.bank)
    (nowhere : value.register? = none) (range : r.inRange = true)
    (empty : c.registers.occupant? r = none) : ({ c with
      registers := c.registers.setOccupant r (some v)
      values := c.values.modify v ({ · with position := some (.register r) }) } : Context).Follows
        plan := by
  have unseated {q : Register} : c.registers.occupant? q ≠ some v := by
    intro occupied
    simp [Value.register?, follows.position_of_occupant found occupied,
      Position.register?] at nowhere
  refine follows.relocate found rfl (fun _ => le_rfl) reached (.inl rfl) ?_ fun {q w} => ?_
  · rintro q ⟨⟩
    refine ⟨bank, fun named => ?_⟩
    by_contra wide
    exact narrow (follows.wide_iff.mpr ⟨value, found, named, by simpa using wide⟩)
  · rw [occupant?_setOccupant _ _ _ range]
    by_cases here : q = r
    · subst here
      by_cases same : w = v
      · simp [same]
      · simp [same, Ne.symm same, empty]
    · by_cases same : w = v
      · simp [here, same, unseated, Ne.symm here]
      · simp [here, same]

section
variable (found : c.values.get? v = some value)
include found

theorem occupants_emptied {w : ValueId}
    (pos : value.position = some (.register r)) :
    (c.registers.setOccupant r none).occupant? q = some w ↔
      if w = v then False else c.registers.occupant? q = some w := by
  have occupied := follows.owned found pos
  rw [occupant?_setOccupant _ _ _ (inRange_of_occupant? occupied)]
  by_cases here : q = r
  · subst here
    by_cases same : w = v
    · simp [same]
    · simp [same, occupied, Ne.symm same]
  · by_cases same : w = v
    · simp [same, here, follows.occupant_iff found, pos, Ne.symm here]
    · simp [same, here]

theorem unseat (pos : value.position = some (.register r)) : ({ c with
      registers := c.registers.setOccupant r none
      values := c.values.modify v ({ · with position := value.home? }) } :
        Context).Follows plan := by
  have in_memory {q : Register} : value.home? ≠ some (.register q) := by
    intro is_home
    cases follows.settled found is_home
  refine follows.relocate found rfl (fun _ => le_rfl) (follows.not_waiting_of_register found pos)
    (.inr (.inl rfl)) (fun is_home => (in_memory is_home).elim) fun {q w} => ?_
  simp only [follows.occupants_emptied found pos, in_memory]

theorem spill {size : UInt8}
    (pos : value.position = some (.register r)) (hands : c.Hands value.ty.size (.stack slot) c1) :
    ({ c1.pushed (.storeStack r slot size) with
      registers := c1.registers.setOccupant r none
      values := c1.values.modify v ({ · with position := some (.stack slot) }) } : Context).Follows
        plan := by
  have registers : c1.registers = c.registers := by cases hands; rfl
  refine follows.relocate found (by rw [← hands.values]) hands.extent_le
    (follows.not_waiting_of_register found pos)
    (.inr (.inr ⟨_, rfl, hands.grants, hands.not_grants⟩)) (by simp) fun {q w} => ?_
  simp only [registers, follows.occupants_emptied found pos, Option.some.injEq, reduceCtorEq]

end

theorem move {source target : Register} (occupied : c.registers.occupant? source = some v)
    (range : target.inRange = true) (bank : target.bank = source.bank)
    (empty : (c.registers.setOccupant source none).occupant? target = none) :
    ({ c.pushed (.mov target source) with
      registers := (c.registers.setOccupant source none).setOccupant target (some v)
      values := c.values.modify v ({ · with position := some (.register target) }) }
        : Context).Follows plan := by
  obtain ⟨value, found, pos, own_bank, fits⟩ := follows.seated occupied
  refine follows.relocate found rfl (fun _ => le_rfl) (follows.not_waiting_of_register found pos)
    (.inl rfl) ?_ fun {q w} => ?_
  · rintro q ⟨⟩
    exact ⟨own_bank.trans bank.symm, fits⟩
  · have emptied := follows.occupants_emptied (q := q) (w := w) found pos
    rw [occupant?_setOccupant _ _ _ range]
    by_cases here : q = target
    · subst here
      rw [empty] at emptied
      by_cases same : w = v
      · simp [same]
      · simpa [same, Ne.symm same] using emptied
    · by_cases same : w = v
      · simpa [same, here, Ne.symm here] using emptied
      · simpa [same, here] using emptied

theorem rehome (found : c.values.get? v = some value) (is_home : value.home? = some home)
    (wide : value.ty.fitsRegister = false) :
    ({ c with values := c.values.modify v ({ · with position := some home }) }
      : Context).Follows plan := by
  have named : value.isNamed = true := by
    cases h : value.named? <;> simp_all [Value.home?, isNamed]
  have nowhere {q : Register} : c.registers.occupant? q ≠ some v := by
    intro occupied
    obtain ⟨_, same, _, _, fits⟩ := follows.seated occupied
    obtain rfl := mem_unique found same
    simp [fits named] at wide
  have in_memory {q : Register} : some home ≠ some (Position.register q) := by
    rintro ⟨⟩
    cases follows.settled found is_home
  refine follows.relocate found rfl (fun _ => le_rfl) (follows.not_waiting_of_named found named)
    (.inr (.inl is_home.symm)) (fun register => (in_memory register).elim) fun {q w} => ?_
  by_cases same : w = v
  · simp only [same, ↓reduceIte, in_memory, nowhere]
  · simp [same]

theorem grant {named : Named} (found : c.values.get? v = some value)
    (is_named : value.named? = some named) (memory : home.isRegister = false)
    (hands : c.Hands value.ty.size home c1) :
    ({ c1 with
      values := c1.values.modify v (·.mapNamed fun _ => { named with home := some home }) }
        : Context).Follows plan := by
  obtain ⟨data, kind⟩ : ∃ data, value.kind = .named data := by
    cases h : value.kind <;> simp [named?, h] at is_named
    exact ⟨_, rfl⟩
  have granted : (value.mapNamed fun _ => { named with home := some home })
      = { value with kind := .named { named with home := some home } } := by
    simp [mapNamed, kind]
  have registers : c1.registers = c.registers := by cases hands <;> rfl
  refine follows.modify found (by rw [← hands.values]) hands.extent_le ?_ (by rw [granted])
    (by simp [granted, isNamed, named?, kind]) (fun {place} claim => ?_)
    (follows.not_waiting_of_named found (by simp [isNamed, is_named]))
  · refine follows.toSeats.modify found (by rw [← hands.values]) (by rw [granted])
      (by simp [granted, isNamed, named?, kind]) (fun is_home => ?_)
      (fun pos => ?_) fun {q w} => ?_
    · simp only [granted, Value.home?, named?, bind_some, Option.some.injEq] at is_home
      rwa [← is_home]
    · rw [granted] at pos
      obtain ⟨_, same, _, bank, fits⟩ := follows.seated (follows.owned found pos)
      obtain rfl := mem_unique found same
      exact ⟨bank, fits⟩
    · rw [registers]
      by_cases same : w = v
      · simp [same, granted, follows.occupant_iff found]
      · simp [same]
  · obtain ⟨away, here | is_home⟩ := claim
    · rw [granted] at here
      exact .inl ⟨away, .inl here⟩
    · simp only [granted, Value.home?, named?, bind_some, Option.some.injEq] at is_home
      subst is_home
      exact .inr ⟨hands.grants, hands.not_grants⟩

end

end Context.Follows

namespace Discipline

def tidy (plan : Plan) : Discipline where
  holds c := c.Follows plan
  admits v := ¬plan.waiting v ∧ ¬plan.wide v
  admits_known {c v value} follows found known fits := by
    refine ⟨follows.not_waiting found ?_, fun wide => ?_⟩
    · rcases known with placed | constant | named
      · cases h : value.position <;> simp_all [isUnplaced]
      · cases h : value.kind <;>
          simp_all [isUnplaced, isUnnamed, isConstant, Value.constant?]
      · cases h : value.kind <;>
          simp_all [isUnplaced, isUnnamed, isNamed, named?]
    · obtain ⟨_, same, named, too_wide⟩ := follows.wide_iff.mp wide
      obtain rfl := mem_unique found same
      obtain fit | placed := fits named
      · simp [fit] at too_wide
      · obtain ⟨r, pos⟩ : ∃ r, value.position = some (.register r) := by
          rcases h : value.position with _ | ⟨_ | _ | _ | _⟩ <;>
            simp_all [Value.register?, Position.register?]
        obtain ⟨_, same, _, _, fit⟩ := follows.seated (follows.owned found pos)
        obtain rfl := mem_unique found same
        simp [fit named] at too_wide
  aside follows same := follows.aside same
  seat follows admitted found bank nowhere range empty :=
    follows.seat admitted.1 admitted.2 found bank nowhere range empty
  unseat follows found _ pos := follows.unseat found pos
  spill {c c1 r v w value slot size} follows found _ occupied own hands := by
    refine follows.spill found ?_ hands
    obtain rfl | pos := own
    · exact follows.position_of_occupant found occupied
    · exact pos
  move follows occupied _ range bank empty := follows.move occupied range bank empty
  rehome follows found is_home wide := follows.rehome found is_home wide
  grant follows found is_named _ memory hands := follows.grant found is_named memory hands
  emit follows _ _ :=
    { seated := follows.seated, owned := follows.owned, settled := follows.settled
      granted := follows.granted, distinct := follows.distinct, kept := follows.kept
      waits := follows.waits, wide_iff := follows.wide_iff }
  remark follows _ :=
    { seated := follows.seated, owned := follows.owned, settled := follows.settled
      granted := follows.granted, distinct := follows.distinct, kept := follows.kept
      waits := follows.waits, wide_iff := follows.wide_iff }

end Discipline

def Plan.awaiting (plan : Plan) (v : ValueId) (slot : Option StackSlot) : Plan :=
  { plan with slot, waiting := fun w => w = v ∨ plan.waiting w }

namespace Context.Follows
variable {plan : Plan}

theorem await (follows : c.Follows plan)
    (unplaced : ∀ {value}, c.values.get? v = some value → value.isUnplaced = true) :
    c.Follows (plan.awaiting v none) :=
  { follows with
    kept := nofun
    waits := by
      rintro w value (rfl | waiting) found
      · exact unplaced found
      · exact follows.waits waiting found }

theorem keep {size : Nat} (follows : c.Follows (plan.awaiting v none))
    (hands : c.Hands size (.stack slot) c') : c'.Follows (plan.awaiting v (some slot)) :=
  { follows.aside hands.aside with
    kept := by
      rintro _ ⟨⟩
      refine ⟨hands.grants, fun found claim => hands.not_grants ?_⟩
      rw [hands.values] at found
      exact follows.granted found claim }

theorem place (follows : c.Follows (plan.awaiting v (some slot))) (free : plan.slot = none)
    (reached : ¬plan.waiting v) (found : c.values.get? v = some value) :
    ({ c with values := c.values.modify v ({ · with position := some (.stack slot) }) }
      : Context).Follows plan := by
  obtain ⟨granted, nobody⟩ := follows.kept rfl
  have nowhere : value.position = none := by
    have unplaced := follows.waits (.inl rfl) found
    simp only [isUnplaced, Bool.and_eq_true, isNone_iff_eq_none] at unplaced
    exact unplaced.2
  constructor
  case toTidy =>
    refine ⟨follows.toSeats.modify found rfl rfl rfl (fun is_home => follows.settled found is_home)
      (by simp) fun {q w} => ?_, follows.toDivides.modify found rfl (fun _ => le_rfl) ?_⟩
    · by_cases same : w = v
      · simp [same, follows.occupant_iff found, nowhere]
      · simp [same]
    · rintro place ⟨memory, here | home⟩
      · cases here
        exact .inr ⟨granted, nobody⟩
      · exact .inl ⟨memory, .inr home⟩
  case kept => simp [free]
  case waits =>
    intro w value' waiting found'
    have other : w ≠ v := by
      rintro rfl
      exact reached waiting
    rw [get?_modify, if_neg other] at found'
    exact follows.waits (.inr waiting) found'
  case wide_iff => exact follows.wide_modify found rfl rfl rfl

end Context.Follows

def Discipline.Reserving.tidy {plan : Plan} (free : plan.slot = none) :
    (Discipline.tidy plan).Reserving where
  expects value := value.isUnplaced = true
  waiting v := .tidy (plan.awaiting v none)
  reserved slot v := .tidy (plan.awaiting v (some slot))
  wait follows unplaced := follows.await unplaced
  reserve follows hands := follows.keep hands
  place follows admitted found _ := follows.place free admitted.1 found

end RegisterBackend
