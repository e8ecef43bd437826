import RegisterBackend.Convention
import RegisterBackend.Proofs.Steps

/-!
What code generation never takes back. `Leads c c'` says that `c'` comes after `c`. A `Discipline`
is a property of contexts that every elementary step keeps; the steps that read a stack slot, or
record a slot for a value, owe it a reason.
-/
namespace RegisterBackend

open ValueStore Gen

variable {c c' : Context} {α : Type} {f : Value → Value} {home pos : Position}
  {i : Instr} {r : Register} {size : Nat} {v : ValueId} {value value' : Value}

inductive Area where
  | frame (id : FrameId)
  | statics
  | blob (id : ConstantId)
  deriving DecidableEq

def Context.extent (c : Context) : Area → Nat
  | .frame id => (c.frames.size? id).getD 0
  | .statics => c.statics.used
  | .blob id => ((c.constants.get? id).map List.length).getD 0

/-- Every variable belongs into the frame of its function. -/
def Context.IsLocal (c : Context) : Prop :=
  ∀ {v value named}, c.values.get? v = some value → value.named? = some named →
    named.storage = .auto ∧ value.ty.isConst = false

def Context.Bounded (c : Context) : Prop :=
  ∀ {frame size}, c.frames.size? frame = some size → size ≤ maxFrameSize

def ValueKind.nature : ValueKind → ValueKind
  | .named data => .named { name := data.name, storage := data.storage }
  | kind => kind

namespace Value

structure Ages (old new : Value) : Prop where
  ty : new.ty = old.ty
  nature : new.kind.nature = old.kind.nature
  home : ∀ {pos}, old.home? = some pos → new.home? = some pos
  escaped : old.isEscaped = true → new.isEscaped = true

theorem Ages.refl (value : Value) : Ages value value := ⟨rfl, rfl, id, id⟩

theorem Ages.trans {a b c : Value} (first : Ages a b) (second : Ages b c) : Ages a c where
  ty := second.ty.trans first.ty
  nature := second.nature.trans first.nature
  home := second.home ∘ first.home
  escaped := second.escaped ∘ first.escaped

section
variable {old new : Value} (same : new.kind.nature = old.kind.nature)
include same

theorem constant?_eq_of_nature : new.constant? = old.constant? := by
  simp only [constant?]
  cases h : old.kind <;> cases h' : new.kind <;> simp_all [ValueKind.nature]

theorem isNamed_eq_of_nature : new.isNamed = old.isNamed := by
  simp only [isNamed, named?]
  cases h : old.kind <;> cases h' : new.kind <;> simp_all [ValueKind.nature]

theorem isUnnamed_eq_of_nature : new.isUnnamed = old.isUnnamed := by
  simp only [isUnnamed]
  cases h : old.kind <;> cases h' : new.kind <;> simp_all [ValueKind.nature]

theorem storage_eq_of_nature {data : Named} (is_named : new.named? = some data) :
    ∃ data', old.named? = some data' ∧ data'.storage = data.storage := by
  simp only [named?] at is_named ⊢
  cases h : old.kind <;> cases h' : new.kind <;> simp_all [ValueKind.nature]

end

structure Spot where
  ty : Ty
  nature : ValueKind
  position : Option Position
  home : Option Position

def spot (v : Value) : Spot := ⟨v.ty, v.kind.nature, v.position, v.home?⟩

@[simp] theorem spot_setDirty (v : Value) (dirty : Bool) : (v.setDirty dirty).spot = v.spot := by
  cases h : v.kind <;> simp [spot, setDirty, mapNamed, h, ValueKind.nature, home?, named?]

theorem ages_setDirty (v : Value) (dirty : Bool) : v.Ages (v.setDirty dirty) := by
  cases h : v.kind <;>
    constructor <;> simp [setDirty, mapNamed, h, ValueKind.nature, home?, named?, isEscaped]

@[simp] theorem spot_setEscaped (v : Value) (escaped : Bool) :
    (v.setEscaped escaped).spot = v.spot := by
  cases h : v.kind <;> simp [spot, setEscaped, mapNamed, h, ValueKind.nature, home?, named?]

end Value

theorem Context.Hands.extent_le (hands : c.Hands size pos c') (area : Area) :
    c.extent area ≤ c'.extent area := by
  cases hands with
  | slot current known fits =>
    cases area with
    | frame id =>
      simp only [Context.extent, Frames.size?_withSize known]
      split
      · next same => simp [same, known]
      · exact le_rfl
    | _ => exact le_rfl
  | static after =>
    cases area with
    | statics => exact le_add_right after
    | _ => exact le_rfl
  | blob =>
    cases area with
    | blob id =>
      simp only [Context.extent, ConstantPool.get?, Array.getElem?_push]
      split
      · next last => simp [last]
      · exact le_rfl
    | _ => exact le_rfl

structure Leads (c c' : Context) : Prop where
  options : c'.options = c.options
  currentFrame : c'.currentFrame = c.currentFrame
  code : c.code.toList <+: c'.code.toList
  extent : ∀ area, c.extent area ≤ c'.extent area
  frames : c'.frames.sizes.size = c.frames.sizes.size
  bounded : c.Bounded → c'.Bounded
  areas : c.IsLocal → c'.statics = c.statics ∧ c'.constants = c.constants
  values : ∀ {v value}, c.values.get? v = some value →
    ∃ value', c'.values.get? v = some value' ∧ value.Ages value'
  unknown : ∀ {v}, c.values.get? v = none → c'.values.get? v = none

namespace Leads

theorem refl (c : Context) : Leads c c where
  options := rfl
  currentFrame := rfl
  code := List.prefix_rfl
  extent _ := le_rfl
  frames := rfl
  bounded := id
  areas _ := ⟨rfl, rfl⟩
  values found := ⟨_, found, .refl _⟩
  unknown := id

theorem before (leads : Leads c c') (found' : c'.values.get? v = some value') :
    ∃ value, c.values.get? v = some value ∧ value.Ages value' := by
  cases found : c.values.get? v with
  | none => simp [leads.unknown found] at found'
  | some value =>
    obtain ⟨_, same, ages⟩ := leads.values found
    obtain rfl := Option.mem_unique same found'
    exact ⟨value, rfl, ages⟩

theorem isLocal (leads : Leads c c') (local_vars : c.IsLocal) : c'.IsLocal := by
  intro v value named found is_named
  obtain ⟨old, before, ages⟩ := leads.before found
  obtain ⟨data, is_named', storage⟩ := Value.storage_eq_of_nature ages.nature is_named
  rw [ages.ty, ← storage]
  exact local_vars before is_named'

theorem trans {a b : Context} (first : Leads a b) (second : Leads b c) : Leads a c where
  options := second.options.trans first.options
  currentFrame := second.currentFrame.trans first.currentFrame
  code := first.code.trans second.code
  extent area := (first.extent area).trans (second.extent area)
  frames := second.frames.trans first.frames
  bounded small := second.bounded (first.bounded small)
  areas local_vars := by
    obtain ⟨statics, constants⟩ := first.areas local_vars
    obtain ⟨statics', constants'⟩ := second.areas (first.isLocal local_vars)
    exact ⟨statics'.trans statics, constants'.trans constants⟩
  values found := by
    obtain ⟨value, found, ages⟩ := first.values found
    obtain ⟨value', found', ages'⟩ := second.values found
    exact ⟨value', found', ages.trans ages'⟩
  unknown missing := second.unknown (first.unknown missing)

theorem of_same (options : c'.options = c.options) (currentFrame : c'.currentFrame = c.currentFrame)
    (code : c.code.toList <+: c'.code.toList) (frames : c'.frames = c.frames)
    (statics : c'.statics = c.statics) (constants : c'.constants = c.constants)
    (values : c'.values = c.values) : Leads c c' where
  options := options
  currentFrame := currentFrame
  code := code
  extent area := by cases area <;> simp [Context.extent, frames, statics, constants]
  frames := by rw [frames]
  bounded small := fun {_ _} known => small (by rwa [← frames])
  areas _ := ⟨statics, constants⟩
  values found := ⟨_, values ▸ found, .refl _⟩
  unknown missing := values ▸ missing

theorem ofValues (c : Context) {values : ValueStore}
    (ages : ∀ v, Option.Rel Value.Ages (c.values.get? v) (values.get? v)) :
    Leads c { c with values } where
  options := rfl
  currentFrame := rfl
  code := List.prefix_rfl
  extent _ := le_rfl
  frames := rfl
  bounded := id
  areas _ := ⟨rfl, rfl⟩
  values {v value} found := by
    have related := ages v
    rw [found] at related
    cases h : values.get? v with
    | none => simp [h] at related
    | some value' =>
      rw [h, Option.rel_some_some] at related
      exact ⟨value', rfl, related⟩
  unknown {v} missing := by
    have related := ages v
    rw [missing] at related
    cases h : values.get? v with
    | none => rfl
    | some value => simp [h] at related

theorem modify (c : Context) (v : ValueId)
    (ages : ∀ {value}, c.values.get? v = some value → value.Ages (f value)) :
    Leads c { c with values := c.values.modify v f } := by
  refine ofValues c fun w => ?_
  rw [get?_modify]
  by_cases same : w = v
  · subst same
    cases found : c.values.get? w with
    | none => simp
    | some value => simpa using ages found
  · cases c.values.get? w <;> simp [same, Value.Ages.refl]

theorem touch (c : Context) (v : ValueId) : Leads c { c with values := c.values.touch v } := by
  refine ofValues c fun w => ?_
  rw [get?_touch]
  by_cases same : w = v
  · subst same
    cases c.values.get? w with
    | none => simp
    | some value => simpa using ⟨rfl, rfl, id, id⟩
  · cases c.values.get? w <;> simp [same, Value.Ages.refl]

theorem pushed (c : Context) (i : Instr) : Leads c (c.pushed i) :=
  of_same rfl rfl (by simp [Context.pushed]) rfl rfl rfl rfl

theorem appended (c : Context) (instrs : List Instr) : Leads c (c.appended instrs) :=
  of_same rfl rfl (by simp [Context.appended]) rfl rfl rfl rfl

theorem withLock (c : Context) (r : Register) (locked : Bool) : Leads c (c.withLock r locked) :=
  of_same rfl rfl List.prefix_rfl rfl rfl rfl rfl

theorem hands (hands : c.Hands size pos c') (slot : c.IsLocal → ∃ slot, pos = .stack slot) :
    Leads c c' := by
  constructor
  case areas =>
    intro local_vars
    obtain ⟨slot, rfl⟩ := slot local_vars
    cases hands
    exact ⟨rfl, rfl⟩
  case bounded =>
    intro small frame size known'
    cases hands with
    | slot current known fits =>
      rw [Frames.size?_withSize known] at known'
      split at known'
      · cases known'
        exact fits
      · exact small known'
    | static after | blob => exact small known'
  case extent => exact hands.extent_le
  all_goals cases hands
  all_goals first
    | rfl
    | exact List.prefix_rfl
    | exact fun found => ⟨_, found, .refl _⟩
    | exact id
    | simp [Frames.withSize]

end Leads

/-- The instruction reads the slot; `previous` is the one before it. A block copy reads the
slot whose address was just taken. -/
def Instr.Reads (previous : Option Instr) (i : Instr) (slot : StackSlot) : Prop :=
  match i with
  | .loadStack _ source _ => source = slot
  | .copyStack _ source size => source = slot ∧ size ≠ 0
  | .copyMem _ source size => previous = some (.leaStack source slot) ∧ size ≠ 0
  | _ => False

def Instr.isQuiet : Instr → Bool
  | .loadStack _ _ _ => false
  | .copyStack _ _ _ => false
  | .copyMem _ _ _ => false
  | i => !i.isRemark

theorem Instr.not_reads_of_isQuiet (quiet : i.isQuiet = true) (previous : Option Instr)
    (slot : StackSlot) : ¬i.Reads previous slot := by
  cases i with
  | loadStack _ _ _ | copyStack _ _ _ | copyMem _ _ _ => cases quiet
  | _ => exact id

theorem Instr.not_isRemark_of_isQuiet (quiet : i.isQuiet = true) : i.isRemark = false := by
  cases i with
  | comment _ => cases quiet
  | location _ _ _ => cases quiet
  | _ => rfl

def Context.Homed (c : Context) : Prop :=
  ∀ {v value place}, c.values.get? v = some value → value.isNamed = true →
    value.position = some place → place.isRegister = false → value.home? = some place

/-- Nothing changed but what no value and no instruction speaks about. -/
structure Context.Aside (c c' : Context) : Prop where
  code : c'.code = c.code
  spot : ∀ v, (c'.values.get? v).map Value.spot = (c.values.get? v).map Value.spot
  occupant : ∀ r, c'.registers.occupant? r = c.registers.occupant? r
  extent : ∀ area, c.extent area ≤ c'.extent area
  frames : c'.frames.sizes.size = c.frames.sizes.size

theorem Context.Aside.before (same : c.Aside c') (found' : c'.values.get? v = some value') :
    ∃ value, c.values.get? v = some value ∧ value.ty = value'.ty
      ∧ value.kind.nature = value'.kind.nature ∧ value.position = value'.position
      ∧ value.home? = value'.home? := by
  have spots := same.spot v
  rw [found', Option.map_some, eq_comm, Option.map_eq_some_iff] at spots
  simpa only [Value.spot, Value.Spot.mk.injEq] using spots

theorem Context.Hands.aside (hands : c.Hands size pos c') : c.Aside c' where
  code := by cases hands <;> rfl
  spot _ := by rw [hands.values]
  occupant _ := by cases hands <;> rfl
  extent := hands.extent_le
  frames := by cases hands <;> simp [Frames.withSize]

/-- A property of contexts that every step of the bookkeeping keeps. A slot is `ready` when it
may be read and `filled` when something was stored in it; `admits` are the values that may be
given a register. -/
structure Discipline where
  holds : Context → Prop
  ready : Context → StackSlot → Prop := fun _ _ => True
  filled : Context → StackSlot → Prop := fun _ _ => True
  admits : ValueId → Prop := fun _ => True
  ready_mono : ∀ {c c' slot}, Leads c c' → ready c slot → ready c' slot := by
    exact fun _ _ => trivial
  filled_mono : ∀ {c c' slot}, Leads c c' → filled c slot → filled c' slot := by
    exact fun _ _ => trivial
  ready_position : ∀ {c v value slot}, holds c → c.values.get? v = some value →
    value.position = some (.stack slot) → ready c slot := by exact fun _ _ _ => trivial
  ready_home : ∀ {c v value slot}, holds c → c.values.get? v = some value →
    value.home? = some (.stack slot) → ready c slot := by exact fun _ _ _ => trivial
  admits_known : ∀ {c v value}, holds c → c.values.get? v = some value →
    value.position.isSome ∨ value.isConstant ∨ value.isNamed →
    (value.isNamed = true → value.ty.fitsRegister = true ∨ value.register?.isSome = true) →
      admits v := by
    exact fun _ _ _ _ => trivial
  aside : ∀ {c c'}, holds c → c.Aside c' → holds c'
  /-- A value goes into an empty register. -/
  seat : ∀ {c r v value}, holds c → admits v → c.values.get? v = some value →
    value.ty.bank = r.bank → value.register? = none → r.inRange = true →
    c.registers.occupant? r = none →
    holds { c with
      registers := c.registers.setOccupant r (some v)
      values := c.values.modify v ({ · with position := some (.register r) }) }
  /-- A value leaves its register for its home. -/
  unseat : ∀ {c r v value}, holds c → c.values.get? v = some value →
    c.registers.occupant? r = some v → value.position = some (.register r) →
    holds { c with
      registers := c.registers.setOccupant r none
      values := c.values.modify v ({ · with position := value.home? }) }
  /-- A value without a home leaves its register for a slot that was just handed out. -/
  spill : ∀ {c c1 r v w value slot size}, holds c → c.values.get? v = some value →
    value.isNamed = false → c.registers.occupant? r = some w →
    w = v ∨ value.position = some (.register r) → c.Hands value.ty.size (.stack slot) c1 →
    holds { c1.pushed (.storeStack r slot size) with
      registers := c1.registers.setOccupant r none
      values := c1.values.modify v ({ · with position := some (.stack slot) }) }
  /-- A value goes from one register to another. -/
  move : ∀ {c v source target}, holds c → c.registers.occupant? source = some v →
    source.inRange = true → target.inRange = true → target.bank = source.bank →
    (c.registers.setOccupant source none).occupant? target = none →
    holds { c.pushed (.mov target source) with
      registers := (c.registers.setOccupant source none).setOccupant target (some v)
      values := c.values.modify v ({ · with position := some (.register target) }) }
  /-- A variable too wide for registers is at home. -/
  rehome : ∀ {c v value home}, holds c → c.values.get? v = some value → value.home? = some home →
    value.ty.fitsRegister = false →
    holds { c with values := c.values.modify v ({ · with position := some home }) }
  /-- A variable is given its home. -/
  grant : ∀ {c c1 v value named home}, holds c → c.values.get? v = some value →
    value.named? = some named → named.home = none → home.isRegister = false →
    c.Hands value.ty.size home c1 →
    holds { c1 with values :=
      c1.values.modify v (·.mapNamed fun _ => { named with home := some home }) }
  emit : ∀ {c i}, holds c → i.isRemark = false →
    (∀ slot, i.Reads c.code.back? slot → ready c slot) → holds (c.pushed i)
  remark : ∀ {c i}, holds c → c.Notes i → holds (c.pushed i)
  filled_store : ∀ {c r slot size}, holds c →
    filled (c.pushed (.storeStack r slot size)) slot := by exact fun _ => trivial
  filled_buffer : ∀ {c r slot}, holds c → c.code.back? = some (.leaStack r slot) →
    filled (c.pushed (.storeStack r (.outgoing Convention.returnPointerOffset) 8)) slot := by
    exact fun _ _ => trivial

def Value.isUnplaced (v : Value) : Bool := v.isUnnamed && v.position.isNone

theorem Value.isNamed_of_isUnplaced {v : Value} (unplaced : v.isUnplaced = true) :
    v.isNamed = false := by
  cases h : v.kind <;> simp [isUnplaced, isUnnamed, h] at unplaced <;> simp [isNamed, named?, h]

/-- How a discipline lets an operation take a slot first and give it to its result last: while
the result waits for its slot, a stronger discipline is kept. -/
structure Discipline.Reserving (D : Discipline) where
  /-- What the result must be like before the operation. -/
  expects : Value → Prop
  waiting : ValueId → Discipline
  reserved : StackSlot → ValueId → Discipline
  wait : ∀ {c v}, D.holds c →
    (∀ {value}, c.values.get? v = some value → expects value) → (waiting v).holds c
  reserve : ∀ {c c1 v size slot}, (waiting v).holds c → c.Hands size (.stack slot) c1 →
    (reserved slot v).holds c1
  place : ∀ {c v value slot}, (reserved slot v).holds c → D.admits v →
    c.values.get? v = some value → (reserved slot v).filled c slot ∨ value.ty.size = 0 →
    D.holds { c with values := c.values.modify v ({ · with position := some (.stack slot) }) }

namespace Context.Homed

theorem relocate {pos : Option Position} (held : c.Homed) (found : c.values.get? v = some value)
    (allowed : pos.any Position.isRegister ∨ pos = value.home? ∨ value.isNamed = false) :
    ({ c with values := c.values.modify v ({ · with position := pos }) } : Context).Homed := by
  intro w value' place found' is_named at_place memory
  rw [get?_modify] at found'
  split at found'
  · next same =>
    subst same
    rw [found] at found'
    cases found'
    simp only at at_place
    subst at_place
    rcases allowed with register | home | unnamed
    · simp [memory] at register
    · exact home.symm
    · cases unnamed.symm.trans is_named
  · exact held found' is_named at_place memory

theorem grant {named : Named} (held : c.Homed) (found : c.values.get? v = some value)
    (is_data : value.named? = some named) (fresh : named.home = none) :
    ({ c with values := c.values.modify v (·.mapNamed fun _ => { named with home := some home }) }
      : Context).Homed := by
  intro w value' place found' is_named at_place memory
  rw [get?_modify] at found'
  split at found'
  · next same =>
    subst same
    rw [found] at found'
    cases found'
    have pos : value.position = some place := by
      cases h : value.kind <;> simp_all [Value.mapNamed]
    have homed := held found (by simp [Value.isNamed, is_data]) pos memory
    simp [Value.home?, is_data, fresh] at homed
  · exact held found' is_named at_place memory

theorem aside (held : c.Homed) (same : c.Aside c') : c'.Homed := by
  intro v value' place found' is_named pos memory
  obtain ⟨value, found, spot⟩ := same.before found'
  rw [← spot.2.2.2]
  refine held found ?_ (spot.2.2.1.trans pos) memory
  rw [← is_named, Value.isNamed_eq_of_nature spot.2.1]

end Context.Homed

/-- A condition on the places that values of a type have, as position or as home, given the areas of
memory and the number of frames. What is handed out meets it, and it outlasts that more is handed
out. -/
structure Zoning where
  allows : (Area → Nat) → Nat → Ty → Position → Prop
  fits : (Area → Nat) → Prop := fun _ => True
  fits_mono : ∀ {extent larger : Area → Nat}, extent ≤ larger → fits extent →
    fits larger := by exact fun _ _ => trivial
  mono : ∀ {extent larger frames ty place}, extent ≤ larger → allows extent frames ty place →
    allows larger frames ty place
  register : ∀ {extent frames ty r}, allows extent frames ty (.register r)
  hands : ∀ {c c' : Context} {ty : Ty} {place}, fits c.extent → c.Hands ty.size place c' →
    allows c'.extent c'.frames.sizes.size ty place

structure Zoning.Holds (Z : Zoning) (c : Context) : Prop where
  fits : Z.fits c.extent
  allowed : ∀ {v value place}, c.values.get? v = some value → value.position = some place
    ∨ value.home? = some place →
    Z.allows c.extent c.frames.sizes.size value.ty place

namespace Zoning.Holds
variable {Z : Zoning} (held : Z.Holds c)
include held

theorem aside (same : c.Aside c') : Z.Holds c' where
  fits := Z.fits_mono same.extent held.fits
  allowed {v value' place} found' here := by
    obtain ⟨value, found, ty, _, pos, home⟩ := same.before found'
    rw [← pos, ← home] at here
    rw [same.frames, ← ty]
    exact Z.mono same.extent (held.allowed found here)

theorem modify (values : c'.values = c.values.modify v f) (extent : c'.extent = c.extent)
    (frames : c'.frames.sizes.size = c.frames.sizes.size) (ty : ∀ value, (f value).ty = value.ty)
    (own : ∀ {value place}, c.values.get? v = some value →
      (f value).position = some place ∨ (f value).home? = some place →
        Z.allows c.extent c.frames.sizes.size value.ty place) : Z.Holds c' where
  fits := extent ▸ held.fits
  allowed {w value' place} found' here := by
    rw [values, get?_modify] at found'
    rw [extent, frames]
    split at found'
    · obtain ⟨value, found, rfl⟩ := Option.map_eq_some_iff.mp found'
      rw [ty]
      exact own found here
    · exact held.allowed found' here

theorem relocate {pos : Option Position}
    (values : c'.values = c.values.modify v ({ · with position := pos }))
    (extent : c'.extent = c.extent) (frames : c'.frames.sizes.size = c.frames.sizes.size)
    (there : ∀ {value place}, c.values.get? v = some value → pos = some place →
      Z.allows c.extent c.frames.sizes.size value.ty place) : Z.Holds c' :=
  held.modify values extent frames (fun _ => rfl) fun found here =>
    here.elim (there found) fun home => held.allowed found (.inr home)

end Zoning.Holds

def Discipline.zoned (Z : Zoning) : Discipline where
  holds := Z.Holds
  aside held same := held.aside same
  seat held _ _ _ _ _ _ := held.relocate rfl rfl rfl (by rintro _ _ _ ⟨⟩; exact Z.register)
  unseat {c r v value} held found _ _ := by
    refine held.relocate rfl rfl rfl fun {value' place} found' home => ?_
    obtain rfl := Option.mem_unique found found'
    exact held.allowed found (.inr home)
  spill {c c1 r v w value slot size} held found _ _ _ hands := by
    refine (held.aside hands.aside).relocate rfl rfl rfl ?_
    rintro value' _ found' ⟨⟩
    obtain rfl := Option.mem_unique (hands.values ▸ found') found
    exact Z.hands held.fits hands
  move held _ _ _ _ _ := held.relocate rfl rfl rfl (by rintro _ _ _ ⟨⟩; exact Z.register)
  rehome {c v value home} held found is_home _ := by
    refine held.relocate rfl rfl rfl ?_
    rintro value' _ found' ⟨⟩
    obtain rfl := Option.mem_unique found found'
    exact held.allowed found (.inr is_home)
  grant {c c1 v value named home} held found is_named _ _ hands := by
    have held1 := held.aside hands.aside
    refine held1.modify rfl rfl rfl (fun
      value => by cases h : value.kind <;> simp [Value.mapNamed, h]) ?_
    intro value' place found' here
    obtain rfl := Option.mem_unique (hands.values ▸ found') found
    cases h : value'.kind with
    | named data =>
      simp only [Value.mapNamed, h, Value.home?, Value.named?, Option.bind_some,
        Option.some.injEq] at here
      obtain pos | rfl := here
      · exact held1.allowed found' (.inl pos)
      · exact Z.hands held.fits hands
    | _ => simp [Value.named?, h] at is_named
  emit held _ _ := ⟨held.fits, held.allowed⟩
  remark held _ := ⟨held.fits, held.allowed⟩

namespace Discipline

def free : Discipline where
  holds _ := True
  aside _ _ := trivial
  seat _ _ _ _ _ _ _ := trivial
  unseat _ _ _ _ := trivial
  spill _ _ _ _ _ _ := trivial
  move _ _ _ _ _ _ := trivial
  rehome _ _ _ _ := trivial
  grant _ _ _ _ _ _ := trivial
  emit _ _ _ := trivial
  remark _ _ := trivial

def homed : Discipline where
  holds := Context.Homed
  aside held same := held.aside same
  seat held _ found _ _ _ _ := held.relocate found (.inl rfl)
  unseat held found _ _ := held.relocate found (.inr (.inl rfl))
  spill {c c1 r v w value slot size} held found unnamed _ _ hands := by
    have held1 : c1.Homed := held.aside hands.aside
    exact fun {_ _ _} => held1.relocate (hands.values ▸ found) (.inr (.inr unnamed))
  move {c v source target} held _ _ _ _ _ := by
    intro w value' place found' is_named at_place memory
    rw [get?_modify] at found'
    split at found'
    · obtain ⟨_, _, rfl⟩ := Option.map_eq_some_iff.mp found'
      cases at_place
      cases memory
    · exact held found' is_named at_place memory
  rehome held found home _ := held.relocate found (.inr (.inl home.symm))
  grant {c c1 v value named home} held found is_named fresh _ hands := by
    have held1 : c1.Homed := held.aside hands.aside
    exact fun {_ _ _} => held1.grant (hands.values ▸ found) is_named fresh
  emit held _ _ := held
  remark held _ := held

def Reserving.free : Discipline.free.Reserving where
  expects _ := True
  waiting _ := .free
  reserved _ _ := .free
  wait _ _ := trivial
  reserve _ _ := trivial
  place _ _ _ _ := trivial

/-- A run of the step from `c` keeps the discipline, leads on, and leaves the locks alone. -/
def Walks {α : Type} (D : Discipline) (c : Context) (x : Gen α) : Prop :=
  ∀ a c', D.holds c → Gen.Runs x c a c' →
    D.holds c' ∧ Leads c c' ∧ c'.registers.locked = c.registers.locked

/-- A run of the step from `c` goes over from one discipline to another. -/
def Crosses {α : Type} (D D' : Discipline) (c : Context) (x : Gen α) : Prop :=
  ∀ a c', D.holds c → Gen.Runs x c a c' →
    D'.holds c' ∧ Leads c c' ∧ c'.registers.locked = c.registers.locked

section
variable {β ι : Type} {D : Discipline} {x : Gen α}

theorem walks_of_holds (step : D.holds c → D.Walks c x) : D.Walks c x :=
  fun a c' held run => step held a c' held run

theorem walks_pure (a : α) : D.Walks c (pure a) := by
  intro b c' held run
  obtain ⟨_, rfl⟩ := runs_pure.mp run
  exact ⟨held, .refl _, rfl⟩

theorem walks_throw (fault : Fault) : D.Walks c (throw fault : Gen α) := by
  intro b c' _ run
  exact (runs_throw.mp run).elim

theorem walks_inconsistent (cause : Inconsistency) : D.Walks c (Gen.inconsistent cause : Gen α) :=
  walks_throw _

theorem crosses_bind {D' : Discipline} {f : α → Gen β} (first : D.Walks c x)
    (rest : ∀ {a c1}, D.holds c → Gen.Runs x c a c1 → Leads c c1 → D.Crosses D' c1 (f a)) :
    D.Crosses D' c (x >>= f) := by
  intro b c' held run
  obtain ⟨a, c1, run1, run2⟩ := runs_bind.mp run
  obtain ⟨held1, leads1, locked1⟩ := first _ _ held run1
  obtain ⟨held2, leads2, locked2⟩ := rest held run1 leads1 _ _ held1 run2
  exact ⟨held2, leads1.trans leads2, locked2.trans locked1⟩

theorem walks_bind {f : α → Gen β} (first : D.Walks c x)
    (rest : ∀ {a c1}, D.holds c → Gen.Runs x c a c1 → Leads c c1 → D.Walks c1 (f a)) :
    D.Walks c (x >>= f) :=
  crosses_bind first rest

theorem walks_throw_then (fault : Fault) {f : α → Gen β} : D.Walks c (throw fault >>= f) :=
  walks_bind (walks_throw _) fun _ run _ => (runs_throw.mp run).elim

theorem walks_seq {f : α → Gen β} (first : D.Walks c x)
    (rest : ∀ {a c1}, D.Walks c1 (f a)) : D.Walks c (x >>= f) :=
  walks_bind first fun _ _ _ => rest

theorem walks_get {f : Context → Gen β} (rest : D.Walks c (f c)) : D.Walks c (get >>= f) := rest

theorem walks_valueOf {f : Value → Gen β} (rest : ∀ {value}, c.values.get? v = some value →
      D.Walks c (f value)) : D.Walks c (Gen.valueOf v >>= f) := by
  intro b c' held run
  obtain ⟨value, found, run⟩ := runs_valueOf_bind.mp run
  exact rest found _ _ held run

theorem walks_occupantOf {f : Option ValueId → Gen β}
    (rest : D.Walks c (f (c.registers.occupant? r))) : D.Walks c (Gen.occupantOf r >>= f) := by
  intro b c' held run
  exact rest _ _ held (runs_occupantOf_bind.mp run).2

theorem walks_discard (step : D.Walks c x) : D.Walks c (discard x) := by
  intro b c' held run
  obtain ⟨a, run⟩ := runs_discard.mp run
  exact step _ _ held run

theorem walks_ite {p : Prop} [Decidable p] {y : Gen α} (yes : p → D.Walks c x)
    (no : ¬p → D.Walks c y) : D.Walks c (if p then x else y) := by
  by_cases h : p
  · simpa [h] using yes h
  · simpa [h] using no h

theorem walks_forIn {f : ι → PUnit → Gen (ForInStep PUnit)} {xs : List ι}
    (round : ∀ x u c, D.Walks c (f x u)) (u : PUnit) : D.Walks c (forIn xs u f) :=
  forIn_rule (P := D.Walks) (fun _ _ => walks_pure _)
    (fun c x u _ rest => walks_seq (round x u c) (rest _ _)) xs c u

end

section
variable {D : Discipline} {block : Gen α}

theorem holds_appended {remarks : List Instr} (held : D.holds c)
    (notes : ∀ i ∈ remarks, c.Notes i) : D.holds (c.appended remarks) := by
  induction remarks generalizing c with
  | nil => simpa [Context.appended] using held
  | cons i rest ih =>
    have next := ih (D.remark held (notes i (by simp))) fun j member =>
      (notes j (by simp [member])).of_values rfl
    simpa [Context.appended, Context.pushed] using next

theorem walks_emit (code : i.isRemark = false)
    (allowed : ∀ slot, i.Reads c.code.back? slot → D.ready c slot) : D.Walks c (Gen.emit i) := by
  intro a c' held run
  obtain rfl := runs_emit.mp run
  exact ⟨D.emit held code allowed, .pushed _ _, rfl⟩

theorem walks_quiet (quiet : i.isQuiet = true) : D.Walks c (Gen.emit i) :=
  walks_emit (Instr.not_isRemark_of_isQuiet quiet)
    fun slot reads => (Instr.not_reads_of_isQuiet quiet _ slot reads).elim

theorem walks_updateValue (spot : ∀ value : Value, (f value).spot = value.spot)
    (ages : ∀ value : Value, value.Ages (f value)) : D.Walks c (Gen.updateValue v f) := by
  intro a c' held run
  obtain ⟨_, rfl⟩ := runs_updateValue.mp run
  exact ⟨D.aside held ⟨rfl, fun w => map_get?_modify _ v w _ spot, fun _ => rfl,
    fun _ => le_rfl, rfl⟩,
    .modify _ _ fun _ => ages _, rfl⟩

theorem walks_setDirty (v : ValueId) (dirty : Bool) :
    D.Walks c (Gen.updateValue v (·.setDirty dirty)) :=
  walks_updateValue (fun value => value.spot_setDirty dirty) fun value => value.ages_setDirty dirty

theorem walks_escape (v : ValueId) : D.Walks c (Gen.updateValue v (·.setEscaped true)) := by
  refine walks_updateValue (fun value => value.spot_setEscaped true) fun value => ?_
  cases h : value.kind <;>
    constructor <;> simp [Value.setEscaped, Value.mapNamed, h, ValueKind.nature, Value.home?,
      Value.named?, Value.isEscaped]

theorem walks_touch (v : ValueId) : D.Walks c (Gen.touch v) := by
  intro a c' held run
  obtain ⟨_, rfl⟩ := runs_touch.mp run
  exact ⟨D.aside held ⟨rfl, fun w => map_get?_touch _ v w _ fun _ _ => rfl,
    fun _ => rfl, fun _ => le_rfl, rfl⟩,
    .touch _ _, rfl⟩

theorem walks_consume (v : ValueId) : D.Walks c (Gen.consume v) := by
  intro left c' held run
  obtain ⟨value, _, _, rfl⟩ := runs_consume run
  exact ⟨D.aside held ⟨rfl, fun w => map_get?_modify _ v w _ fun _ => rfl,
    fun _ => rfl, fun _ => le_rfl, rfl⟩,
    .modify _ _ fun _ => ⟨rfl, rfl, id, id⟩, rfl⟩

theorem walks_record (f : Statistics → Statistics) : D.Walks c (Gen.record f) := by
  intro a c' held run
  obtain rfl := runs_record.mp run
  exact ⟨D.aside held ⟨rfl, fun _ => rfl, fun _ => rfl, fun _ => le_rfl, rfl⟩,
    .of_same rfl rfl List.prefix_rfl rfl rfl rfl rfl, rfl⟩

theorem walks_setLocation (loc : Location) : D.Walks c (Gen.setLocation loc) := by
  intro a c' held run
  obtain rfl := runs_setLocation.mp run
  exact ⟨D.aside held ⟨rfl, fun _ => rfl, fun _ => rfl, fun _ => le_rfl, rfl⟩,
    .of_same rfl rfl List.prefix_rfl rfl rfl rfl rfl, rfl⟩

theorem walks_comment (text : String) : D.Walks c (Gen.comment text) := by
  intro a c' held run
  obtain ⟨remarks, only, rfl⟩ := runs_comment run
  exact ⟨holds_appended held only, .appended _ _, rfl⟩

theorem walks_markLocation (v : ValueId) : D.Walks c (Gen.markLocation v) := by
  intro a c' held run
  obtain ⟨remarks, only, rfl⟩ := runs_markLocation run
  exact ⟨holds_appended held only, .appended _ _, rfl⟩

theorem locked_hands (hands : c.Hands size pos c') : c'.registers.locked = c.registers.locked := by
  cases hands <;> rfl

theorem walks_allocateSlot (size : Nat) : D.Walks c (Gen.allocateSlot size) := by
  intro slot c' held run
  have hands := runs_allocateSlot run
  exact ⟨D.aside held hands.aside, .hands hands fun _ => ⟨slot, rfl⟩, locked_hands hands⟩

theorem walks_bindRegister (admitted : D.admits v) : D.Walks c (Gen.bindRegister r v) := by
  intro a c' held run
  obtain ⟨value, found, bank, owned, range, empty, remarks, only, rfl⟩ := runs_bindRegister run
  have seated := D.seat held admitted found bank owned range empty
  have counted : D.holds { c with
      registers := c.registers.setOccupant r (some v)
      values := (c.values.modify v ({ · with position := some (.register r) })).touch v
      statistics := c.statistics.addRegister } :=
    D.aside seated ⟨rfl, fun w => map_get?_touch _ v w _ fun _ _ => rfl, fun _ => rfl,
      fun _ => le_rfl, rfl⟩
  refine ⟨holds_appended counted fun i member => (only i member).of_values rfl, ?_,
    by simp⟩
  refine .trans (.modify c v (f := ({ · with position := some (.register r) }))
    fun _ => ⟨rfl, rfl, id, id⟩) ?_
  refine .trans (.touch _ v) ?_
  exact .of_same rfl rfl (by simp) rfl rfl rfl rfl

theorem walks_unbindRegister (r : Register) : D.Walks c (Gen.unbindRegister r) := by
  intro v c' held run
  obtain ⟨value, found, occupied, range, pos, _, remarks, only, rfl⟩ :=
    runs_unbindRegister run
  refine ⟨holds_appended (D.unseat held found occupied pos) fun i member =>
    (only i member).of_values rfl, ?_, by simp⟩
  refine .trans (.modify c v (f := ({ · with position := value.home? }))
    fun _ => ⟨rfl, rfl, id, id⟩) ?_
  exact .of_same rfl rfl (by simp) rfl rfl rfl rfl

theorem walks_homeOf (v : ValueId) : D.Walks c (Gen.homeOf v) := by
  intro home c' held run
  obtain ⟨value, named, found, is_named, ⟨_, rfl⟩ | ⟨fresh, memory, slot, c1, hands, rfl⟩⟩ :=
    runs_homeOf run
  · exact ⟨held, .refl _, rfl⟩
  have in_frame (local_vars : c.IsLocal) : ∃ slot, home = .stack slot := by
    obtain ⟨auto, mutable⟩ := local_vars found is_named
    exact slot auto mutable
  have found1 : c1.values.get? v = some value := hands.values ▸ found
  refine ⟨D.grant held found is_named fresh memory hands,
    (Leads.hands hands in_frame).trans (.modify _ _ fun {old} found => ?_),
    show c1.registers.locked = _ from locked_hands hands⟩
  obtain rfl : old = value := by simpa [found1] using found.symm
  cases h : old.kind <;> simp only [Value.named?, h] at is_named <;> cases is_named
  constructor <;> simp [Value.mapNamed, h, ValueKind.nature, Value.home?, Value.named?, fresh,
    Value.isEscaped]

theorem crosses_place (reserving : D.Reserving) {slot : StackSlot} (admitted : D.admits v)
    (filled : ∀ {value}, c.values.get? v = some value →
      (reserving.reserved slot v).filled c slot ∨ value.ty.size = 0) :
    (reserving.reserved slot v).Crosses D c (Gen.setPosition v (some (.stack slot))) := by
  intro a c' held run
  obtain ⟨⟨value, found⟩, rfl⟩ := runs_setPosition.mp run
  exact ⟨reserving.place held admitted found (filled found),
    .modify _ _ fun _ => ⟨rfl, rfl, id, id⟩, rfl⟩

theorem holds_withLock (held : D.holds c) (r : Register) (locked : Bool) :
    D.holds (c.withLock r locked) :=
  D.aside held ⟨rfl, fun _ => rfl, by simp [Context.withLock], fun _ => le_rfl, rfl⟩

theorem crosses_holding {D' : Discipline} (inner : D.Crosses D' (c.withLock r true) block) :
    D.Crosses D' c (Gen.holding r block) := by
  intro a c' held run
  obtain ⟨c1, block_run, rfl⟩ := runs_holding.mp run
  obtain ⟨held1, leads, same⟩ := inner _ _ (holds_withLock held r true) block_run
  exact ⟨holds_withLock held1 r _, (Leads.withLock c r true).trans (leads.trans (.withLock _ _ _)),
    Context.locked_restored same⟩

theorem walks_holding (inner : D.Walks (c.withLock r true) block) :
    D.Walks c (Gen.holding r block) :=
  crosses_holding inner

end

end Discipline

theorem Leads.of_walks {x : Gen α} {a : α} (walks : Discipline.free.Walks c x)
    (run : Gen.Runs x c a c') : Leads c c' :=
  (walks _ _ trivial run).2.1

end RegisterBackend
