import RegisterBackend.Proofs.Progress

/-!
Properties of steps that pass from the parts to the whole. A `Closure` holds of the elementary steps
and of making room in the registers; a `Regime` also lets a step stop at any inconsistency, and is a
`Course` then.
-/
namespace RegisterBackend

variable {α : Type} {c : Context} {cause : Inconsistency} {decl : Declaration}
  {f : Value → Value} {fault : Fault} {isLast : Bool} {functions : Array Declaration} {p : Prop}
  {scratch : Nat → Gen Register} {target v value : ValueId} {ty : Ty}

namespace Context

structure Core where
  values : ValueStore
  registers : RegisterFile
  frames : Frames
  statics : StaticSegment
  constants : ConstantPool
  currentFrame : Option FrameId
  loc : Location

def core (c : Context) : Core :=
  ⟨c.values, c.registers, c.frames, c.statics, c.constants, c.currentFrame, c.loc⟩

def withCore (c : Context) (k : Core) : Context :=
  { c with
    values := k.values
    registers := k.registers
    frames := k.frames
    statics := k.statics
    constants := k.constants
    currentFrame := k.currentFrame
    loc := k.loc }

structure Shares (c d : Context) : Prop where
  values : d.values = c.values
  registers : d.registers = c.registers
  frames : d.frames = c.frames
  statics : d.statics = c.statics
  constants : d.constants = c.constants
  currentFrame : d.currentFrame = c.currentFrame
  loc : d.loc = c.loc

theorem Shares.core_eq {d : Context} (shares : c.Shares d) : d.core = c.core := by
  simp [core, shares.values, shares.registers, shares.frames, shares.statics, shares.constants,
    shares.currentFrame, shares.loc]

theorem Shares.choose_eq {d : Context} (shares : c.Shares d) (bank : Bank) :
    d.choose bank = c.choose bank := by
  have touched (v : ValueId) : d.touchedAt v = c.touchedAt v := by simp [touchedAt, shares.values]
  have oldest (best : Register × ValueId) (rest : List (Register × ValueId)) :
      d.oldest best rest = c.oldest best rest := by
    induction rest generalizing best with
    | nil => rfl
    | cons next rest ih => simp [Context.oldest, touched, ih]
  have found (p : Value → Bool) (candidates : List (Register × ValueId)) :
      d.findCandidate p candidates = c.findCandidate p candidates := by
    induction candidates with
    | nil => rfl
    | cons candidate rest ih => simp [findCandidate, shares.values, ih]
  simp [choose, candidates, shares.registers, found, oldest]

theorem isRoutine_of_choose {bank : Bank} (stopped : c.choose bank = .error fault) :
    fault.isRoutine = true := by
  have missing {p : Value → Bool} {candidates : List (Register × ValueId)} {fault : Fault}
      (stopped : c.findCandidate p candidates = .error fault) : fault.isRoutine = true := by
    induction candidates with
    | nil => cases stopped
    | cons candidate rest ih =>
      unfold findCandidate at stopped
      split at stopped
      · cases stopped
        rfl
      · split at stopped
        · cases stopped
        · exact ih stopped
  unfold choose at stopped
  repeat' split at stopped
  all_goals cases stopped
  · rfl
  all_goals next failed => exact missing failed

theorem isRoutine_of_check (stopped : c.check = .error fault) : fault.isRoutine = true := by
  have occupants {entries : List (Register × ValueId)}
      (stopped : c.checkOccupants entries = .error fault) :
      fault.isRoutine = true := by
    induction entries with
    | nil => cases stopped
    | cons entry rest ih =>
      rw [checkOccupants] at stopped
      repeat' split at stopped
      on_goal 4 => exact ih stopped
      all_goals
        cases stopped
        rfl
  have ownership {v : ValueId} {pos : Position} (stopped : c.checkOwnership v pos = .error fault) :
      fault.isRoutine = true := by
    unfold checkOwnership at stopped
    split at stopped
    · split at stopped
      · next failed =>
        cases stopped
        unfold RegisterFile.occupant at failed
        split at failed <;> cases failed
        rfl
      · split at stopped <;> cases stopped
        rfl
    · cases stopped
  have positions {entries : List (ValueId × Value)} {seen : List (Position × ValueId)}
      (stopped : c.checkPositions entries seen = .error fault) : fault.isRoutine = true := by
    induction entries generalizing seen with
    | nil => cases stopped
    | cons entry rest ih =>
      rw [checkPositions] at stopped
      split at stopped
      · exact ih stopped
      · split at stopped
        · exact ih stopped
        · split at stopped
          · next failed =>
            cases stopped
            exact ownership failed
          · split at stopped
            · cases stopped
              rfl
            · exact ih stopped
  unfold check at stopped
  split at stopped
  · next failed =>
    cases stopped
    exact occupants failed
  · exact positions stopped

end Context

def ValueStore.Shows (sees : ValueId → Ty → Option Word → Prop) (s : ValueStore) : Prop :=
  ∀ ⦃v value⦄, s.get? v = some value → sees v value.ty value.constant?

theorem ValueStore.Shows.modify {sees : ValueId → Ty → Option Word → Prop} {s : ValueStore}
    (shown : s.Shows sees)
    (kept : ∀ value, (f value).ty = value.ty ∧ (f value).constant? = value.constant?) :
    (s.modify v f).Shows sees := by
  intro w value found
  rw [get?_modify] at found
  split at found
  · next same =>
    obtain ⟨old, was, rfl⟩ := Option.map_eq_some_iff.mp found
    rw [(kept old).1, (kept old).2, same]
    exact shown was
  · exact shown found

theorem Value.mapNamed_keeps (value : Value) (g : Named → Named) :
    (value.mapNamed g).ty = value.ty ∧ (value.mapNamed g).constant? = value.constant? := by
  cases kind : value.kind <;> simp [mapNamed, constant?, kind]

namespace Gen

structure Closure where
  holds : {α : Type} → Gen α → Prop
  /-- What type and what constant a value may turn out to have when it is looked up. -/
  sees : ValueId → Ty → Option Word → Prop
  writes : Instr → Prop
  stops : Fault → Prop
  writes_plain : ∀ {i}, i.isPlain = true → writes i
  stops_routine : ∀ {fault}, fault.isRoutine = true → stops fault
  holds_pure : ∀ {α : Type} (a : α), holds (pure a : Gen α)
  holds_throw : ∀ {α fault}, stops fault → holds (throw fault : Gen α)
  holds_bind : ∀ {α β : Type} {x : Gen α} {f : α → Gen β}, holds x →
    (∀ a, holds (f a)) → holds (x >>= f)
  holds_holding : ∀ {α : Type} {r : Register} {block : Gen α}, holds block → holds (holding r block)
  /-- The state is looked at only through its core. -/
  holds_get : ∀ {α : Type} {f : Context → Gen α}, (∀ {c d : Context}, c.Shares d → f d = f c) →
    (∀ c, c.values.Shows sees → holds (f c)) → holds (get >>= f)
  /-- The core is changed, but no lock. -/
  holds_modify : ∀ {f : Context → Context} (g : Context.Core → Context.Core),
    (∀ c : Context, f c = c.withCore (g c.core)) →
      (∀ c : Context, (f c).registers.locked = c.registers.locked) →
    (∀ c : Context, c.values.Shows sees → (f c).values.Shows sees) → holds (modify f : Gen Unit)
  /-- What registers hold is exchanged, but no lock. -/
  holds_exchange : ∀ {α : Type} {f : Context → Gen α}, (∀ {c d : Context}, c.Shares d → f d = f c) →
    (∀ c, holds (f c) ∨ ∃ registers a, registers.locked = c.registers.locked
      ∧ f c = (do modify fun c => { c with registers }; return a)) → holds (get >>= f)
  holds_emit : ∀ {i}, writes i → holds (emit i)
  holds_comment : ∀ text, holds (comment text)
  /-- Where a value is can be said after a step that finds it. -/
  holds_mark : ∀ {α : Type} {x : Gen α} {v}, holds x →
    (∀ {c a c'}, Runs x c a c' → ∃ value, c'.values.get? v = some value) →
    holds (x >>= fun _ => markLocation v)
  holds_addRegister : holds (record .addRegister)
  holds_addSpill : holds (record .addSpill)
  holds_addCall : holds (record .addCall)
  holds_addOperation : ∀ kind, holds (record (·.addOperation kind))

namespace Closure
variable {ι : Type} (C : Closure)

theorem holds_plain {i : Instr} (plain : i.isPlain = true) : C.holds (emit i) :=
  C.holds_emit (C.writes_plain plain)

theorem holds_routine (routine : fault.isRoutine = true) : C.holds (throw fault : Gen α) :=
  C.holds_throw (C.stops_routine routine)

theorem holds_discard {x : Gen α} (step : C.holds x) : C.holds (discard x) :=
  C.holds_bind step fun _ => C.holds_pure _

theorem holds_ite [Decidable p] {x y : Gen α} (yes : p → C.holds x) (no : ¬p → C.holds y) :
    C.holds (if p then x else y) := by
  split
  · next h => exact yes h
  · next h => exact no h

theorem holds_when [Decidable p] {x : Gen Unit} {f : Unit → Gen α} (first : p → C.holds x)
    (rest : C.holds (f ())) : C.holds (if p then x >>= f else f ()) :=
  C.holds_ite (fun h => C.holds_bind (first h) fun _ => rest) fun _ => rest

theorem holds_forIn {f : ι → PUnit → Gen (ForInStep PUnit)} {xs : List ι}
    (round : ∀ x u, C.holds (f x u)) (u : PUnit) : C.holds (forIn xs u f) :=
  forIn_rule (P := fun _ => C.holds) (fun _ _ => C.holds_pure _)
    (fun _ x u _ rest => C.holds_bind (round x u) fun s => rest s ()) xs () u

theorem holds_overOccupied {f : Register × ValueId → PUnit → Gen (ForInStep PUnit)}
    {g : PUnit → Gen α} (round : ∀ pair u, C.holds (f pair u)) (rest : ∀ u, C.holds (g u)) :
    C.holds (do
      let u ← forIn (← get).registers.allOccupied PUnit.unit f
      g u) := by
  refine C.holds_get (fun same => by rw [same.registers]) fun c _ => ?_
  exact C.holds_bind (C.holds_forIn round _) rest

theorem holds_aside {f : Context → Context} (g : Context.Core → Context.Core)
    (in_core : ∀ c : Context, f c = c.withCore (g c.core))
    (registers : ∀ c : Context, (f c).registers = c.registers)
    (values : ∀ c : Context, (f c).values = c.values) : C.holds (modify f : Gen Unit) :=
  C.holds_modify g in_core (fun c => by rw [registers]) fun c shown => (values c).symm ▸ shown

theorem holds_setLocation (loc : Location) : C.holds (setLocation loc) :=
  C.holds_aside (fun k => { k with loc }) (fun _ => rfl) (fun _ => rfl) fun _ => rfl

theorem holds_valueOf {f : Value → Gen α}
    (rest : ∀ value, C.sees v value.ty value.constant? → C.holds (f value)) :
    C.holds (valueOf v >>= f) := by
  unfold valueOf
  rw [bind_assoc]
  refine C.holds_get (fun same => by rw [same.values]) fun c shown => ?_
  cases found : c.values.get? v with
  | none => exact C.holds_routine rfl
  | some value => exact rest value (shown found)

section
variable (v)
include v

theorem holds_look : C.holds (valueOf v) := by
  rw [← bind_pure (valueOf v)]
  exact C.holds_valueOf fun _ _ => C.holds_pure _

theorem holds_updateValue
    (kept : ∀ value, (f value).ty = value.ty ∧ (f value).constant? = value.constant?) :
    C.holds (updateValue v f) :=
  C.holds_bind (C.holds_discard (C.holds_look v)) fun _ => C.holds_modify
    (fun k => { k with values := k.values.modify v f }) (fun _ => rfl) (fun _ => rfl)
      fun _ shown => shown.modify kept

theorem holds_setPosition (pos : Option Position) : C.holds (setPosition v pos) :=
  C.holds_updateValue v fun _ => ⟨rfl, rfl⟩

theorem holds_setDirty (dirty : Bool) : C.holds (updateValue v (·.setDirty dirty)) :=
  C.holds_updateValue v fun value => value.mapNamed_keeps _

theorem holds_touch : C.holds (touch v) := by
  refine C.holds_bind (C.holds_discard (C.holds_look v)) fun _ => ?_
  refine C.holds_modify (fun k => { k with values := k.values.touch v }) (fun _ => rfl)
    (fun _ => rfl) fun _ shown => ?_
  apply shown.modify
  intro _
  exact ⟨rfl, rfl⟩

theorem holds_setHome (named : Named) (home : Position) : C.holds (setHome v named home) := by
  unfold setHome Named.setHome
  split
  · exact C.holds_updateValue v fun value => value.mapNamed_keeps _
  · next cause stopped =>
    refine C.holds_routine ?_
    repeat' split at stopped
    all_goals cases stopped
    all_goals rfl

end

theorem holds_allocateSlot (size : Nat) : C.holds (allocateSlot size) := by
  refine C.holds_bind (C.holds_get (fun same => by rw [same.currentFrame]) fun c _ => ?_)
    fun frame => ?_
  · cases c.currentFrame with
    | none => exact C.holds_routine rfl
    | some frame => exact C.holds_pure _
  · refine C.holds_get (fun same => by rw [same.frames]) fun c _ => ?_
    split
    · next slot frames _ =>
      exact C.holds_bind (C.holds_aside (fun k => { k with frames }) (fun _ => rfl) (fun _ => rfl)
        fun _ => rfl) fun _ => C.holds_pure _
    · exact C.holds_get (fun same => by rw [same.loc]) fun _ _ => C.holds_routine rfl
    · exact C.holds_routine rfl

theorem holds_allocateStatic (size align : Nat) : C.holds (allocateStatic size align) := by
  refine C.holds_get (fun same => by rw [same.statics]) fun c _ => ?_
  split
  · next offset statics _ =>
    exact C.holds_bind (C.holds_aside (fun k => { k with statics }) (fun _ => rfl) (fun _ => rfl)
      fun _ => rfl) fun _ => C.holds_pure _
  · exact C.holds_routine rfl

theorem holds_chooseHome (ty : Ty) (storage : StorageClass) :
    C.holds (homeOf.chooseHome ty storage) := by
  refine C.holds_ite
    (fun _ => C.holds_get (fun same => by rw [same.constants]) fun c _ => ?_) fun _ => ?_
  · exact C.holds_bind
      (C.holds_aside (fun k => { k with constants := (c.constants.add _).2 }) (fun _ => rfl)
      (fun _ => rfl) fun _ => rfl) fun _ => C.holds_pure _
  exact C.holds_ite (fun _ => C.holds_bind (C.holds_allocateStatic _ _) fun _ => C.holds_pure _)
    fun _ => C.holds_bind (C.holds_allocateSlot _) fun _ => C.holds_pure _

theorem holds_occupantOf (r : Register) : C.holds (occupantOf r) := by
  refine C.holds_get (fun same => by rw [same.registers]) fun c _ => ?_
  unfold RegisterFile.occupant
  by_cases range : r.inRange = true
  · rw [if_pos range]
    exact C.holds_pure _
  · rw [if_neg range]
    exact C.holds_routine rfl

theorem holds_fileBind (r : Register) (v : ValueId) : C.holds (fileBind r v) := by
  refine C.holds_exchange (fun same => by rw [same.registers]) fun c => ?_
  rw [RegisterFile.bind]
  cases r.inRange with
  | false => exact .inl (C.holds_routine rfl)
  | true =>
    cases c.registers.occupant? r with
    | some holder => exact .inl (C.holds_routine rfl)
    | none => exact .inr ⟨_, (), RegisterFile.locked_setOccupant _ _ _, rfl⟩

theorem holds_fileUnbind (r : Register) : C.holds (fileUnbind r) := by
  refine C.holds_exchange (fun same => by rw [same.registers]) fun c => ?_
  rw [RegisterFile.unbind]
  cases r.inRange with
  | false => exact .inl (C.holds_routine rfl)
  | true =>
    cases c.registers.occupant? r with
    | none => exact .inl (C.holds_routine rfl)
    | some v => exact .inr ⟨_, v, RegisterFile.locked_setOccupant _ _ _, rfl⟩

theorem known_of_touch {c' : Context} {u : Unit} (run : Runs (touch v) c u c') :
    ∃ value, c'.values.get? v = some value := by
  obtain ⟨⟨value, found⟩, rfl⟩ := runs_touch.mp run
  exact ⟨{ value with lastTouched := c.values.clock + 1 }, by simp [ValueStore.get?_touch, found]⟩

theorem holds_touchAndMark (v : ValueId) : C.holds (do touch v; markLocation v) :=
  C.holds_mark (C.holds_touch v) known_of_touch

theorem holds_bindRegister (r : Register) (v : ValueId) : C.holds (bindRegister r v) := by
  have marked : C.holds ((do touch v; record .addRegister) >>= fun _ => markLocation v) := by
    refine C.holds_mark (C.holds_bind (C.holds_touch v) fun _ => C.holds_addRegister) fun run => ?_
    obtain ⟨_, _, touched, counted⟩ := runs_bind.mp run
    obtain rfl := runs_record.mp counted
    obtain ⟨value, found⟩ := known_of_touch touched
    exact ⟨value, found⟩
  have bound : C.holds (do
      fileBind r v
      setPosition v (some (.register r))
      touch v
      record .addRegister
      markLocation v) := by
    rw [bind_assoc] at marked
    exact C.holds_bind (C.holds_fileBind r v) fun _ =>
      C.holds_bind (C.holds_setPosition v _) fun _ => marked
  refine C.holds_valueOf fun value _ =>
    C.holds_ite (fun _ => C.holds_bind (C.holds_routine rfl) fun _ => ?_) fun _ => ?_
  all_goals
    cases value.register? with
    | none => exact bound
    | some owned => exact C.holds_bind (C.holds_routine rfl) fun _ => bound

theorem holds_unbindRegister (r : Register) : C.holds (unbindRegister r) := by
  refine C.holds_bind (C.holds_occupantOf r) fun occupant => ?_
  cases occupant with
  | none => exact C.holds_routine rfl
  | some v =>
    refine C.holds_valueOf fun value _ => ?_
    have placed := C.holds_setPosition v value.home?
    have marked : C.holds (setPosition v value.home? >>= fun _ => markLocation v) := by
      refine C.holds_mark placed fun {c _ _} run => ?_
      obtain ⟨⟨old, found⟩, rfl⟩ := runs_setPosition.mp run
      exact ⟨_, by rw [ValueStore.get?_modify, if_pos rfl, found]; rfl⟩
    have released : C.holds (do
        discard (fileUnbind r)
        setPosition v value.home?
        if value.home?.isSome then markLocation v
        return v) := by
      refine C.holds_bind (C.holds_discard (C.holds_fileUnbind r)) fun _ => ?_
      by_cases homed : value.home?.isSome = true
      · simp only [homed, if_true]
        rw [← bind_assoc]
        exact C.holds_bind marked fun _ => C.holds_pure _
      · simp only [homed]
        exact C.holds_bind placed fun _ => C.holds_pure _
    have clean : C.holds (do
        if value.isDirty then inconsistent (.dirtyDropped v value.description r)
        discard (fileUnbind r)
        setPosition v value.home?
        if value.home?.isSome then markLocation v
        return v) := C.holds_when (fun _ => C.holds_routine rfl) released
    exact C.holds_when (fun _ => C.holds_routine rfl) clean

theorem holds_moveOccupant (source target : Register) : C.holds (moveOccupant source target) := by
  refine C.holds_bind (C.holds_occupantOf source) fun occupant => ?_
  cases occupant with
  | none => exact C.holds_routine rfl
  | some v =>
    refine C.holds_bind (C.holds_plain rfl) fun _ =>
      C.holds_bind (C.holds_discard (C.holds_fileUnbind _)) fun _ => ?_
    refine C.holds_bind (C.holds_fileBind _ _) fun _ =>
      C.holds_bind (C.holds_setPosition _ _) fun _ => ?_
    exact C.holds_touchAndMark v

theorem holds_holderOf (bits : Word) (occupied : List (Register × ValueId)) :
    C.holds (holderOf bits occupied) := by
  induction occupied with
  | nil => exact C.holds_pure _
  | cons pair rest ih =>
    exact C.holds_valueOf fun value _ => C.holds_ite (fun _ => C.holds_pure _) fun _ => ih

theorem holds_loadAddress (dst : Register) (pos : Position) : C.holds (loadAddress dst pos) := by
  cases pos with
  | register r => exact C.holds_routine rfl
  | stack slot => exact C.holds_plain rfl
  | static offset | constant id => exact C.holds_bind (C.holds_plain rfl) fun _ => C.holds_plain rfl

theorem holds_homeOf (v : ValueId) : C.holds (homeOf v) := by
  refine C.holds_valueOf fun value _ => ?_
  cases value.named? with
  | none => exact C.holds_routine rfl
  | some named =>
    dsimp only
    cases named.home with
    | some home => exact C.holds_pure _
    | none =>
      exact C.holds_bind (C.holds_chooseHome _ _) fun _ =>
        C.holds_bind (C.holds_setHome _ _ _) fun _ => C.holds_pure _

theorem holds_spill (v : ValueId) (r : Register) : C.holds (spill v r) := by
  refine C.holds_valueOf fun value _ => C.holds_bind (C.holds_allocateSlot _) fun slot => ?_
  refine C.holds_bind (C.holds_plain rfl) fun _ =>
    C.holds_bind (C.holds_discard (C.holds_fileUnbind r)) ?_
  exact fun _ => C.holds_bind (C.holds_setPosition v _) fun _ => C.holds_addSpill

section
variable {scratch : Gen Register} (obtains : C.holds scratch)
include obtains

theorem holds_storeVia (src : Register) (target : Position) (ty : Ty) :
    C.holds (storeVia scratch src target ty) := by
  have through_pointer {size : UInt8} {target : Position} : C.holds (holding src do
      let ptr ← scratch
      loadAddress ptr target
      emit (.storePtr ptr src size)) :=
    C.holds_holding <| C.holds_bind obtains fun _ =>
      C.holds_bind (C.holds_loadAddress _ _) fun _ => C.holds_plain rfl
  cases target with
  | register dst => exact C.holds_ite (fun _ => C.holds_plain rfl) fun _ => C.holds_pure _
  | stack slot => exact C.holds_plain rfl
  | static offset | constant id => exact through_pointer

theorem holds_writeBackVia (v : ValueId) (r : Register) : C.holds (writeBackVia scratch v r) := by
  refine C.holds_bind (C.holds_homeOf v) fun home => C.holds_valueOf fun value _ => ?_
  refine C.holds_bind (C.holds_storeVia obtains r home value.ty) fun _ => ?_
  exact C.holds_bind (C.holds_setDirty v false) fun _ => C.holds_addSpill

theorem holds_vacateVia (r : Register) : C.holds (vacateVia scratch r) := by
  refine C.holds_bind (C.holds_occupantOf r) fun occupant => ?_
  cases occupant with
  | none => exact C.holds_routine rfl
  | some v =>
    have unbound := C.holds_discard (C.holds_unbindRegister r)
    refine C.holds_valueOf fun value _ => C.holds_ite (fun _ => unbound) fun _ =>
      C.holds_ite (fun _ => ?_) ?_
    · exact C.holds_bind (C.holds_writeBackVia obtains v r) fun _ => unbound
    · exact fun _ => C.holds_spill v r

end

end Closure

/-- A register is chosen by what the state looks like; a register that an eviction needs is chosen
when fewer are unlocked. -/
def obtainBy (scratch : Nat → Gen Register) (bank : Bank) (c : Context) : Gen Register :=
  match c.choose bank with
  | .error fault => throw fault
  | .ok (.free r) => pure r
  | .ok (.drop r) => do
    discard (unbindRegister r)
    return r
  | .ok (.evict r) => do
    vacateVia (scratch c.registers.unlockedCount) r
    return r

def obtainBelow (bound : Nat) : Gen Register := do
  let c ← get
  if c.registers.unlockedCount < bound then obtainRegister .int
  else inconsistent (.everyRegisterLocked .int)

theorem obtainRegister_eq (bank : Bank) :
    obtainRegister bank = get >>= obtainBy obtainBelow bank := by
  funext c
  change obtainFrom bank c = obtainBy obtainBelow bank c c
  have scratch : obtainBelow c.registers.unlockedCount = fun inner =>
      if inner.registers.unlockedCount < c.registers.unlockedCount then obtainFrom .int inner
      else (.error (.failed (.inconsistent (.everyRegisterLocked .int))), inner) := by
    funext inner
    exact apply_ite (fun x : Gen Register => x inner) _ _ _
  rw [obtainFrom, obtainBy, scratch]
  rcases c.choose bank with _ | ⟨_ | _ | _⟩ <;> rfl

namespace Closure
variable (C : Closure)

theorem holds_obtainBy (inner : C.holds (scratch c.registers.unlockedCount)) (bank : Bank) :
    C.holds (obtainBy scratch bank c) := by
  unfold obtainBy
  split
  · next stopped => exact C.holds_routine (Context.isRoutine_of_choose stopped)
  · exact C.holds_pure _
  · exact C.holds_bind (C.holds_discard (C.holds_unbindRegister _)) fun _ => C.holds_pure _
  · exact C.holds_bind (C.holds_vacateVia inner _) fun _ => C.holds_pure _

theorem obtainBy_eq {bank : Bank} {d : Context} (same : c.Shares d) :
    obtainBy scratch bank d = obtainBy scratch bank c := by
  rw [obtainBy, same.choose_eq, same.registers, obtainBy]

theorem holds_obtainBelow (bound : Nat) : C.holds (obtainBelow bound) := by
  induction bound using Nat.strongRecOn with
  | ind bound ih =>
    have chosen : obtainBelow bound = get >>= fun c =>
        if c.registers.unlockedCount < bound then obtainBy obtainBelow .int c
        else inconsistent (.everyRegisterLocked .int) := by
      funext c
      change (if c.registers.unlockedCount < bound then obtainRegister .int
          else inconsistent (.everyRegisterLocked .int) : Gen Register) c
        = (if c.registers.unlockedCount < bound then obtainBy obtainBelow .int c
          else inconsistent (.everyRegisterLocked .int) : Gen Register) c
      rw [obtainRegister_eq]
      split <;> rfl
    rw [chosen]
    refine C.holds_get (fun same => by rw [same.registers, obtainBy_eq same]) fun c _ => ?_
    exact C.holds_ite (fun fewer => C.holds_obtainBy (ih _ fewer) .int) fun _ => C.holds_routine rfl

theorem holds_obtainRegister (bank : Bank) : C.holds (obtainRegister bank) := by
  rw [obtainRegister_eq]
  exact C.holds_get obtainBy_eq fun c _ => C.holds_obtainBy (C.holds_obtainBelow _) bank

theorem holds_store (src : Register) (target : Position) (ty : Ty) :
    C.holds (store src target ty) :=
  C.holds_storeVia (C.holds_obtainRegister .int) src target ty

theorem holds_vacate (r : Register) : C.holds (vacate r) :=
  C.holds_vacateVia (C.holds_obtainRegister .int) r

theorem holds_displace (r : Register) : C.holds (displace r) := by
  refine C.holds_bind (C.holds_occupantOf r) fun _ => C.holds_ite (fun _ => ?_)
    fun _ => C.holds_pure _
  refine C.holds_get (fun same => by rw [same.registers]) fun c _ => ?_
  split
  · exact C.holds_moveOccupant _ _
  · exact C.holds_vacate r

theorem holds_flush (v : ValueId) : C.holds (flush v) := by
  refine C.holds_valueOf fun value _ => C.holds_ite (fun _ => ?_) fun _ => C.holds_pure _
  cases value.register? with
  | none => exact C.holds_routine rfl
  | some r => exact C.holds_holding (C.holds_writeBackVia (C.holds_obtainRegister .int) v r)

theorem holds_flushAll : C.holds flushAll :=
  C.holds_overOccupied (fun _ _ => C.holds_bind (C.holds_flush _) fun _ => C.holds_pure _)
    fun _ => C.holds_pure _

theorem holds_releaseEscaped : C.holds releaseEscaped := by
  refine C.holds_overOccupied (fun pair _ => C.holds_valueOf fun value _ => ?_)
    fun _ => C.holds_pure _
  refine C.holds_ite (fun _ => C.holds_bind (C.holds_flush _) fun _ => ?_) fun _ => C.holds_pure _
  exact C.holds_bind (C.holds_discard (C.holds_unbindRegister _)) fun _ => C.holds_pure _

theorem holds_vacateAll : C.holds vacateAll := by
  refine C.holds_overOccupied (fun pair _ => ?_) fun _ => C.holds_pure _
  refine C.holds_bind (C.holds_occupantOf _) fun _ => C.holds_ite (fun _ => ?_)
    fun _ => C.holds_pure _
  exact C.holds_bind (C.holds_vacate _) fun _ => C.holds_pure _

theorem holds_dropAll (strict : Bool) : C.holds (dropAll strict) := by
  refine C.holds_overOccupied (fun pair _ => C.holds_valueOf fun value _ => ?_)
    fun _ => C.holds_pure _
  refine C.holds_when (fun _ => C.holds_routine rfl) ?_
  exact C.holds_bind (C.holds_discard (C.holds_unbindRegister _)) fun _ => C.holds_pure _

end Closure

structure Regime extends Closure where
  stops_inconsistent : ∀ {cause}, (Fault.failed (.inconsistent cause)).atStart = false →
    stops (.failed (.inconsistent cause))

namespace Regime
variable (R : Regime)

def refuses (cause : Unsupported) : Prop := R.stops (.failed (.unsupported cause))

theorem holds_unsupported {cause : Unsupported} (refused : R.refuses cause) :
    R.holds (unsupported cause : Gen α) := R.holds_throw refused

theorem holds_inconsistent (mild : (Fault.failed (.inconsistent cause)).atStart = false) :
    R.holds (inconsistent cause : Gen α) := R.holds_throw (R.stops_inconsistent mild)

theorem holds_consume (v : ValueId) : R.holds (consume v) := by
  refine R.holds_get (fun same => by rw [same.values]) fun c shown => ?_
  unfold ValueStore.consume
  cases c.values.get? v with
  | none => exact R.holds_routine rfl
  | some value =>
    dsimp only
    cases value.references with
    | zero => exact R.holds_inconsistent rfl
    | succ left =>
      exact R.holds_bind
        (R.holds_modify (fun k => { k with values := c.values.modify v _ }) (fun _ => rfl)
        (fun _ => rfl) fun _ _ => shown.modify fun _ => ⟨rfl, rfl⟩) fun _ => R.holds_pure _

theorem holds_loadConstant (dst : Register) (bits : Word) : R.holds (loadConstant dst bits) := by
  refine R.holds_get (fun same => by rw [same.registers]) fun c _ => ?_
  refine R.holds_bind (R.holds_holderOf bits _) fun holder => ?_
  cases holder with
  | none => exact R.holds_plain rfl
  | some pair =>
    exact R.holds_bind (R.holds_touch _) fun _ =>
      R.holds_ite (fun _ => R.holds_plain rfl) fun _ => R.holds_pure _

/-- The rules of lowering look at the state only where it is looked up, so any state does. -/
def course : Course where
  goes _ _ _ x := R.holds x
  later _ _ := True
  sees := R.sees
  ready _ _ := True
  isVariable _ _ := True
  isWide _ _ := True
  admits _ := True
  places := True
  writes := R.writes
  refuses := R.refuses
  writes_plain := R.writes_plain
  ready_later _ _ := trivial
  isVariable_later _ _ := trivial
  isWide_later _ _ := trivial
  goes_pure := R.holds_pure
  goes_stop := R.holds_routine
  goes_refuse := R.holds_unsupported
  goes_bind first rest := R.holds_bind first fun _ => rest (d := default) trivial
  goes_perm holds _ := holds
  goes_holding inner := R.holds_holding (inner (d := default) trivial)
  goes_valueOf := by
    intro α m c u v f rest
    refine R.holds_valueOf fun value seen =>
      rest (d := { values := ⟨Array.replicate (v.index + 1) value, 0⟩ }) trivial ?_
    exact ⟨by simp [ValueStore.get?], seen, fun _ => trivial, fun _ => trivial, fun _ => trivial,
      fun _ _ => trivial⟩
  goes_overOccupied round rest :=
    R.holds_overOccupied (fun _ _ => round (c := default)) fun _ => rest (d := default)
  goes_emit legal _ _ := R.holds_emit legal
  goes_copyMem _ := R.holds_bind (R.holds_loadAddress _ _) fun _ => R.holds_plain rfl
  goes_loadAddress := R.holds_loadAddress
  goes_loadConstant := R.holds_loadConstant
  goes_touch := R.holds_touch
  goes_touchAndMark := R.holds_touchAndMark
  goes_consume := R.holds_consume
  goes_setDirty := R.holds_setDirty
  goes_escape v := R.holds_updateValue v fun old => old.mapNamed_keeps _
  goes_bindRegister r _ _ _ := R.holds_bindRegister r _
  goes_loadAndBind _ loaded rest :=
    R.holds_bind loaded fun _ => R.holds_bind (R.holds_bindRegister _ _) fun _ =>
    rest (d := default)
  goes_giveAway _ _ _ rest := R.holds_bind (R.holds_discard (R.holds_consume _)) fun _ =>
    R.holds_bind (R.holds_discard (R.holds_unbindRegister _)) fun _ => rest (d := default) trivial
  goes_retake _ _ _ rest := R.holds_bind (R.holds_setDirty _ _) fun _ =>
    R.holds_bind (R.holds_discard (R.holds_unbindRegister _)) fun _ => rest (d := default)
  goes_homeOf rest :=
    R.holds_bind (R.holds_homeOf _) fun _ => rest (d := default) trivial fun _ => trivial
  goes_rehome _ first second rest :=
    R.holds_bind (R.holds_homeOf _) fun _ => R.holds_bind (first (d := default)) fun _ =>
    R.holds_bind (second (d := default)) fun _ => R.holds_bind (R.holds_setPosition _ _) fun _ =>
      rest (d := default)
  goes_place _ := R.holds_setPosition _ _
  goes_allocateSlot := R.holds_allocateSlot
  goes_obtainRegister := R.holds_obtainRegister
  goes_store := R.holds_store
  goes_spill _ _ _ := R.holds_spill _ _
  goes_flush := R.holds_flush
  goes_flushAll := R.holds_flushAll
  goes_releaseEscaped := R.holds_releaseEscaped
  goes_vacateAll := R.holds_vacateAll
  goes_displace := R.holds_displace
  goes_dropReferenced := R.holds_dropAll true
  goes_dropLast := R.holds_dropAll false
  goes_emptied called rest := R.holds_bind R.holds_vacateAll fun _ =>
    R.holds_bind (called (m := .parting) (c := default)) fun _ =>
      R.holds_bind (R.holds_dropAll false) fun _ =>
      rest (d := default)
  goes_addCall := R.holds_addCall
  goes_addOperation := R.holds_addOperation
  goes_comment := R.holds_comment
  goes_setLocation := R.holds_setLocation

theorem holds_retireRegisters : R.holds retireRegisters :=
  R.course.goes_retireRegisters (c := default)

theorem holds_lowerUnchecked {item : BodyItem}
    (allowed : R.course.Allows functions decl isLast item.operation) :
    R.holds (lowerUnchecked functions decl item isLast) :=
  R.course.goes_lowerUnchecked (c := default) allowed (fun _ => trivial) fun _ => trivial

theorem holds_bindParameters (placed : List (ValueId × ArgumentPlace)) :
    R.holds (bindParameters placed) :=
  R.course.goes_bindParameters (m := .parting) (c := default) (by decide) fun _ => trivial

end Regime

/-- How two runs of a step, after which different values are at hand, may be related. A relation
that operations are in with themselves extends to the bodies of functions. -/
structure Sequence where
  holds : {α : Type} → Gen α → Gen α → Prop
  holds_pure : ∀ {α : Type} (a b : α), holds (pure a : Gen α) (pure b)
  holds_bind : ∀ {α β : Type} {x y : Gen α} {f g : α → Gen β}, holds x y →
    (∀ a b, holds (f a) (g b)) →
    holds (x >>= f) (y >>= g)
  holds_checked : holds (do if (← get).options.verify then checkConsistency)
    (do if (← get).options.verify then checkConsistency)

theorem Sequence.holds_lowerBody (S : Sequence) {items : List BodyItem}
    (operations : ∀ item ∈ items, ∀ isLast,
      S.holds (lowerUnchecked functions decl item isLast)
      (lowerUnchecked functions decl item isLast)) :
    S.holds (lowerBody functions decl items) (lowerBody functions decl items) := by
  induction items with
  | nil => exact S.holds_pure _ _
  | cons item rest ih =>
    rw [lowerBody, lowerItem_eq]
    exact S.holds_bind
      (S.holds_bind (operations item (.head _) _) fun _ _ => S.holds_checked) fun _ _ =>
      ih fun item member => operations item (.tail _ member)

def lowerTail (decl : Declaration) (frame : FrameId) (first : Nat) : Gen (Nat × Nat) := do
  lowerEpilogue decl frame
  leaveFrame
  let last ← instructionCount
  record (·.addFunction decl.name (last - first))
  return (first, last)

/-- The parts of a function once its registers were found empty. -/
def lowerParts (functions : Array Declaration) (decl : Declaration) (frame : FrameId)
    (body : List BodyItem) : Gen (Nat × Nat) := do
  let first ← instructionCount
  enterFrame frame
  lowerPrologue decl frame
  lowerBody functions decl body
  if !endsWithReturn body then retireRegisters
  lowerTail decl frame first

/-- Such a relation extends to whole functions and modules. -/
structure Scheme extends Sequence where
  holds_inconsistent : ∀ {α : Type} cause, holds (inconsistent cause : Gen α) (inconsistent cause)
  holds_registers : ∀ {α : Type} {f : Context → Gen α},
    (∀ {c d : Context}, d.registers = c.registers → f d = f c) →
    (∀ c, holds (f c) (f c)) → holds (get >>= f) (get >>= f)
  holds_count : holds instructionCount instructionCount
  holds_addFunction : ∀ name n n', holds (record (·.addFunction name n))
    (record (·.addFunction name n'))
  holds_inFrame : ∀ frame, holds (modify fun c => { c with currentFrame := frame } : Gen Unit)
    (modify fun c => { c with currentFrame := frame })
  holds_prologue : ∀ decl frame, holds (lowerPrologue decl frame) (lowerPrologue decl frame)
  holds_retire : holds retireRegisters retireRegisters
  holds_epilogue : ∀ decl frame, holds (lowerEpilogue decl frame) (lowerEpilogue decl frame)
  holds_entry : ∀ functions entry, holds (lowerEntry functions entry) (lowerEntry functions entry)

namespace Scheme
variable (S : Scheme)

theorem holds_lowerFunction (operations : ∀ item ∈ decl.body.getD [], ∀ isLast,
      S.holds (lowerUnchecked functions decl item isLast)
      (lowerUnchecked functions decl item isLast)) :
    S.holds (lowerFunction functions decl) (lowerFunction functions decl) := by
  unfold lowerFunction
  split
  · exact S.holds_inconsistent _
  · exact S.holds_inconsistent _
  · next frame body _ is_body =>
    rw [is_body] at operations
    have lefts (first first' : Nat) :
        S.holds (lowerTail decl frame first) (lowerTail decl frame first') :=
      S.holds_bind (S.holds_epilogue _ _) fun _ _ => S.holds_bind (S.holds_inFrame _) fun _ _ =>
        S.holds_bind S.holds_count fun _ _ => S.holds_bind (S.holds_addFunction _ _ _)
          fun _ _ => S.holds_pure _ _
    have whole : S.holds (lowerParts functions decl frame body)
        (lowerParts functions decl frame body) := by
      unfold lowerParts
      refine S.holds_bind S.holds_count fun first first' =>
        S.holds_bind (S.holds_inFrame _) fun _ _ => ?_
      refine S.holds_bind (S.holds_prologue _ _) fun _ _ =>
        S.holds_bind (S.holds_lowerBody operations) fun _ _ => ?_
      split
      · exact S.holds_bind S.holds_retire fun _ _ => lefts first first'
      · exact lefts first first'
    refine S.holds_registers (fun same => by rw [same]) fun c => ?_
    cases c.registers.allOccupied with
    | nil => exact whole
    | cons entry entries => exact S.holds_bind (S.holds_inconsistent _) fun _ _ => whole

theorem holds_lowerModule (entry : Option FunctionId) (operations : ∀ decl ∈ functions.toList,
      ∀ item ∈ decl.body.getD [], ∀ isLast,
        S.holds (lowerUnchecked functions decl item isLast)
        (lowerUnchecked functions decl item isLast)) :
    S.holds (lowerModule functions entry) (lowerModule functions entry) := by
  refine S.holds_bind (S.holds_entry _ _) fun _ _ => ?_
  generalize functions.toList = decls at operations ⊢
  induction decls with
  | nil => exact S.holds_pure _ _
  | cons decl rest ih =>
    have ranged (range range' : Option (Nat × Nat)) := S.holds_bind
      (f := fun ranges => pure (range :: ranges)) (g := fun ranges => pure (range' :: ranges))
      (ih fun decl member => operations decl (.tail _ member)) fun _ _ => S.holds_pure _ _
    rw [lowerFunctions]
    split
    · exact ranged none none
    · refine S.holds_bind (S.holds_bind ?_ fun _ _ => S.holds_pure _ _) ranged
      exact S.holds_lowerFunction (operations decl (.head _))

end Scheme

/-- A regime that lets functions stop, count and be entered at will reaches them and modules. -/
def Regime.scheme (R : Regime) (stops : ∀ cause, R.stops (.failed (.inconsistent cause)))
    (writes : ∀ i, i.dividesByZero = false → R.writes i)
    (checked : R.holds (do if (← get).options.verify then checkConsistency))
    (count : R.holds instructionCount)
    (addFunction : ∀ name count, R.holds (record (·.addFunction name count))) : Scheme where
  holds x y := R.holds x ∧ R.holds y
  holds_pure _ _ := ⟨R.holds_pure _, R.holds_pure _⟩
  holds_bind first rest :=
    ⟨R.holds_bind first.1 fun a => (rest a a).1, R.holds_bind first.2 fun a => (rest a a).2⟩
  holds_inconsistent cause := and_self_iff.mpr (R.holds_throw (stops cause))
  holds_registers agrees rest := and_self_iff.mpr
    (R.holds_get (fun same => agrees same.registers) fun c _ => (rest c).1)
  holds_checked := and_self_iff.mpr checked
  holds_count := and_self_iff.mpr count
  holds_addFunction _ _ _ := ⟨addFunction _ _, addFunction _ _⟩
  holds_inFrame frame := and_self_iff.mpr
    (R.holds_aside (fun k => { k with currentFrame := frame }) (fun _ => rfl)
      (fun _ => rfl) fun _ => rfl)
  holds_prologue _ _ := and_self_iff.mpr <| R.holds_bind (R.holds_emit (writes _ rfl)) fun _ =>
    R.holds_bind (R.holds_comment _) fun _ => R.holds_bind (R.holds_emit (writes _ rfl)) fun _ =>
      R.holds_bindParameters _
  holds_retire := and_self_iff.mpr R.holds_retireRegisters
  holds_epilogue _ _ := and_self_iff.mpr <| R.holds_bind (R.holds_emit (writes _ rfl)) fun _ =>
    R.holds_bind (R.holds_emit (writes _ rfl)) fun _ => R.holds_emit (writes _ rfl)
  holds_entry functions entry := by
    refine and_self_iff.mpr ?_
    unfold lowerEntry
    split
    · exact R.holds_pure _
    · split
      · exact R.holds_throw (stops _)
      · exact R.holds_bind (R.holds_emit (writes _ rfl)) fun _ =>
          R.holds_bind (R.holds_emit (writes _ rfl)) fun _ => R.holds_emit (writes _ rfl)

end Gen

end RegisterBackend
