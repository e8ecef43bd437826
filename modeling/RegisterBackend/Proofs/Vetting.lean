import RegisterBackend.Proofs.Provenance

/-!
What construction has vetted. Every operation of a completed body was admitted once, and what was
known then is still so. Values are where their homes are, and every function has its own frame. None
of this depends on how often a body was opened.
-/
namespace RegisterBackend

open Declaration Value ValueStore

variable {m m' : Module} {sig : Signature} {value : Value} {decl decl' : Declaration}
  {function : FunctionId} {label : LabelId} {line : Nat} {loc : Location} {name : String}
  {names : List String} {operation : Operation}

def Operation.labels (operations : List Operation) : List LabelId := operations.filterMap places?

def Declaration.face (decl : Declaration) : Signature × Linkage := (decl.signature, decl.linkage)

theorem Declaration.signature_of_face (same : decl'.face = decl.face) :
    decl'.signature = decl.signature := congrArg Prod.fst same

theorem Declaration.isExternal_of_face (same : decl'.face = decl.face) :
    decl'.isExternal = decl.isExternal := by
  have linkage : decl'.linkage = decl.linkage := congrArg Prod.snd same
  rw [isExternal, isExternal, linkage]

/-- The host can provide a function of the signature: its arguments go into registers, and no more
of them than are set aside for this. -/
structure Signature.Hostable (sig : Signature) : Prop where
  params : ∀ ty ∈ sig.params, PassingClass.ofTy ty ≠ .memory
  ints : (sig.params.map PassingClass.ofTy).count .integer ≤ Module.maxExternalArguments
  floats : (sig.params.map PassingClass.ofTy).count .float ≤ Module.maxExternalArguments

theorem Signature.hostable_of_externalProblem?
    (none_found : Module.externalProblem? name sig = none) : sig.Hostable := by
  simp only [Module.externalProblem?] at none_found
  split at none_found
  · cases none_found
  · next in_registers =>
    have few := (ite_eq_iff.mp none_found).resolve_left (by simp)
    simp only [Bool.or_eq_true, decide_eq_true_eq, not_or, Nat.not_lt] at few
    refine ⟨fun ty member => ?_, few.1.1, few.1.2⟩
    simpa using List.find?_eq_none.mp in_registers ty member

/-- The place is in memory, and the frame or the blob that it is in was made. -/
def Position.Housed (blobs : ConstantPool) (frames : Nat) : Position → Prop
  | .register _ => False
  | .stack slot => ∀ frame, slot.frame? = some frame → frame.index < frames
  | .static _ => True
  | .constant id => ∃ blob, blobs.get? id = some blob ∧ blob ≠ []

/-- The value is at home, if it has one, and the home is there. A constant of the program text is
canonical, and rounded if it is a single. -/
structure Value.Vetted (blobs : ConstantPool) (frames : Nat) (value : Value) : Prop where
  position : value.position = value.home?
  housed : ∀ {place}, value.home? = some place → place.Housed blobs frames
  stored : ∀ {named}, value.named? = some named →
    named.storage = .auto ∨ ∃ home, named.home = some home ∧ home.slot? = none
  canonical : ∀ {bits}, value.constant? = some bits →
    value.ty.isFloat = true ∨ ∃ given, bits = value.ty.canonicalBits given
  rounded : ∀ {bits}, value.constant? = some bits → value.ty.isFloat = true → value.ty.size = 4 →
    ∃ given, bits = Double.roundToSingle given

namespace Value.Vetted
variable {blobs blobs' : ConstantPool} {frames frames' : Nat} {value' : Value}

theorem of_core (same : value'.core = value.core) (vetted : value.Vetted blobs frames) :
    value'.Vetted blobs frames := by
  constructor
  case position => rw [position_of_core same, home?_of_core same, vetted.position]
  all_goals simp only [home?_of_core same, named?_of_core same,
    constant?_of_core same, ty_of_core same]
  · exact vetted.housed
  · exact vetted.stored
  · exact vetted.canonical
  · exact vetted.rounded

theorem mono (vetted : value.Vetted blobs frames)
    (kept : ∀ {id blob}, blobs.get? id = some blob → blobs'.get? id = some blob)
    (grown : frames ≤ frames') : value.Vetted blobs' frames' := by
  refine { vetted with housed := fun {place} is_home => ?_ }
  have housed := vetted.housed is_home
  cases place with
  | register r => exact housed
  | stack slot => exact fun frame in_frame => (housed frame in_frame).trans_le grown
  | static offset => trivial
  | constant id =>
    obtain ⟨blob, known, filled⟩ := housed
    exact ⟨blob, kept known, filled⟩

theorem of_named {named : Named} (is_named : value.kind = .named named)
    (pos : value.position = value.home?)
    (stored : named.storage = .auto ∨ ∃ home, named.home = some home ∧ home.slot? = none)
    (housed : ∀ {place}, named.home = some place → place.Housed blobs frames) :
    value.Vetted blobs frames := by
  have same : value.named? = some named := by rw [named?, is_named]
  have varies : value.constant? = none := by rw [constant?, is_named]
  refine ⟨pos, fun is_home => housed (by rwa [home?, same] at is_home), fun is_named => ?_, ?_, ?_⟩
  · rw [same] at is_named
    cases is_named
    exact stored
  all_goals simp [varies]

theorem of_unnamed (unnamed : value.isUnnamed = true) (nowhere : value.position = none) :
    value.Vetted blobs frames := by
  obtain ⟨nameless, varies⟩ := kinds_of_isUnnamed unnamed
  refine ⟨by simp [nowhere, home?, nameless], ?_, ?_, ?_, ?_⟩ <;> simp [home?, nameless, varies]

end Value.Vetted

namespace Module

structure Keeps (m m' : Module) : Prop where
  values : ∀ {v value}, m.values.get? v = some value →
    ∃ value', m'.values.get? v = some value' ∧ value'.core = value.core
  functions : ∀ {f decl}, m.function? f = some decl →
    ∃ decl', m'.function? f = some decl' ∧ decl'.face = decl.face

/-- The operation was once admitted to the body of a function of the signature, and what it saw
and made is still there. -/
def Vets (m : Module) (sig : Signature) (operation : Operation) : Prop :=
  ∃ b made, BodyBuilder.Admits b operation made ∧ b.decl.signature = sig
    ∧ { b.context with values := b.context.values.including made }.Keeps m

/-- The operations can be the whole body of a function of the signature. -/
structure Completes (m : Module) (sig : Signature) (operations : List Operation) : Prop where
  vets : ∀ operation ∈ operations, m.Vets sig operation
  unique : (Operation.labels operations).Nodup
  reached : ∀ operation ∈ operations, ∀ {label}, operation.goesTo? = some label →
    label ∈ Operation.labels operations

/-- The value is a variable of the type, and the place is its home if that is in the frame. -/
def Holds (m : Module) (frame : Option FrameId) (v : ValueId) (ty : Ty) (place : ArgumentPlace) :
    Prop :=
  ∃ value, m.values.get? v = some value ∧ value.ty = ty ∧ value.isNamed = true
    ∧ ∀ {id}, frame = some id → value.home? = place.home? id

structure Vetted (m : Module) : Prop where
  values : ∀ {v value}, m.values.get? v = some value → value.Vetted m.constants m.frames.sizes.size
  frame : ∀ {f g decl other frame}, m.function? f = some decl → m.function? g = some other →
    decl.frame = some frame → other.frame = some frame → f = g
  sized : ∀ {f decl frame}, m.function? f = some decl → decl.frame = some frame →
    m.frames.size? frame = some decl.layout.argumentsEnd
  addressable : ∀ {f decl}, m.function? f = some decl → decl.layout.argumentsEnd < 2 ^ 32
  frames : m.frames.sizes.size = (m.functions.toList.map (·.frame.isSome)).count true
  formals : ∀ {f decl v ty place}, m.function? f = some decl → (v, ty, place) ∈ decl.formals →
    m.Holds decl.frame v ty place
  bodies : ∀ {f decl}, m.function? f = some decl → m.Completes decl.signature decl.operations
  entry : ∀ {f}, m.entry = some f → ∃ decl, m.function? f = some decl ∧ decl.isExternal = false
    ∧ decl.signature.params = []
  hosted : ∀ {f decl}, m.function? f = some decl → decl.isExternal = true →
    decl.signature.Hostable ∧ decl.frame = none ∧ decl.body = none
  opened : ∀ {f decl}, m.function? f = some decl → decl.body.isSome = true → decl.Opened

section
variable {m'' : Module}

theorem Keeps.trans (first : m.Keeps m') (second : m'.Keeps m'') : m.Keeps m'' where
  values found := by
    obtain ⟨_, found', core⟩ := first.values found
    obtain ⟨value, found'', core'⟩ := second.values found'
    exact ⟨value, found'', core'.trans core⟩
  functions known := by
    obtain ⟨_, known', face⟩ := first.functions known
    obtain ⟨decl, known'', face'⟩ := second.functions known'
    exact ⟨decl, known'', face'.trans face⟩

theorem Keeps.redeclare (known : m.function? function = some decl) (same : decl'.face = decl.face) :
    m.Keeps (m.redeclare function decl') where
  values found := ⟨_, found, rfl⟩
  functions {f other} known' := by
    rw [function?_redeclare known]
    split
    · next is_f =>
      subst is_f
      obtain rfl := Option.mem_unique known known'
      exact ⟨decl', rfl, same⟩
    · exact ⟨other, known', rfl⟩

theorem Vets.mono (vets : m.Vets sig operation) (keeps : m.Keeps m') : m'.Vets sig operation := by
  obtain ⟨b, made, admits, same, seen⟩ := vets
  exact ⟨b, made, admits, same, seen.trans keeps⟩

theorem Completes.mono {operations : List Operation} (completes : m.Completes sig operations)
    (keeps : m.Keeps m') : m'.Completes sig operations where
  vets operation member := (completes.vets operation member).mono keeps
  unique := completes.unique
  reached := completes.reached

theorem Holds.mono {frame : Option FrameId} {v : ValueId} {ty : Ty} {place : ArgumentPlace}
    (holds : m.Holds frame v ty place) (keeps : m.Keeps m') : m'.Holds frame v ty place := by
  obtain ⟨value, found, is_ty, named, home⟩ := holds
  obtain ⟨value', found', core⟩ := keeps.values found
  refine ⟨value', found', (ty_of_core core).trans is_ty, ?_, fun is_frame => ?_⟩
  · rwa [isNamed, named?_of_core core]
  · rw [home?_of_core core, home is_frame]

theorem Completes.nil (m : Module) (sig : Signature) : m.Completes sig [] :=
  ⟨nofun, .nil, nofun⟩

end

structure Grows (m m' : Module) : Prop where
  functions : m'.functions = m.functions
  frames : m'.frames = m.frames
  entry : m'.entry = m.entry
  blobs : ∀ {id blob}, m.constants.get? id = some blob → m'.constants.get? id = some blob
  gains : m.values.Gains (·.Vetted m'.constants m'.frames.sizes.size) m'.values

namespace Grows
variable {v : ValueId}

theorem keeps (grows : m.Grows m') : m.Keeps m' where
  values := grows.gains.kept
  functions known := ⟨_, by rwa [function?, grows.functions], rfl⟩

theorem add (m : Module) (new : value.Vetted m.constants m.frames.sizes.size) :
    m.Grows { m with values := (m.values.add value).2 } := ⟨rfl, rfl, rfl, id, .add _ new⟩

theorem houses (houses : m.Houses m') : m.Grows m' := by
  cases houses with
  | static name legal given =>
    refine ⟨rfl, rfl, rfl, id, .add _ (.of_named rfl rfl (.inr ⟨_, rfl, rfl⟩) ?_)⟩
    rintro _ ⟨⟩
    trivial
  | data ty bytes =>
    refine ⟨rfl, rfl, rfl, fun {id blob} known => ?_,
      .add _ (.of_named rfl rfl (.inr ⟨_, rfl, rfl⟩) ?_)⟩
    · have bound : id.index < m.constants.blobs.size := (Array.getElem?_eq_some_iff.mp known).1
      simp only [ConstantPool.get?, ConstantPool.add, Array.getElem?_push_lt bound]
      rwa [← Array.getElem?_eq_getElem bound]
    · rintro _ ⟨⟩
      exact ⟨paddedBlob bytes, by simp [ConstantPool.get?, ConstantPool.add],
        paddedBlob_ne_nil bytes⟩

end Grows

namespace Vetted

theorem start (options : Options) (file : String) : (Module.start options file).Vetted where
  values found := by simp at found
  frame known := by simp at known
  sized known := by simp at known
  addressable known := by simp at known
  frames := rfl
  formals known := by simp at known
  bodies known := by simp at known
  entry is_entry := by simp [Module.start] at is_entry
  hosted known := by simp at known
  opened known := by simp at known

theorem framed {f : FunctionId} {frame : FrameId} (vetted : m.Vetted)
    (known : m.function? f = some decl) (is_frame : decl.frame = some frame) :
    frame.index < m.frames.sizes.size :=
  (Array.getElem?_eq_some_iff.mp (vetted.sized known is_frame)).1

theorem grow (vetted : m.Vetted) (grows : m.Grows m') : m'.Vetted := by
  have same {f : FunctionId} : m'.function? f = m.function? f := by
    rw [function?, grows.functions, function?]
  constructor
  case values =>
    intro v value' found'
    obtain ⟨value, found, core⟩ | ⟨_, new⟩ := grows.gains.new found'
    · exact ((vetted.values found).mono grows.blobs (by rw [grows.frames])).of_core core
    · exact new
  all_goals simp only [same, grows.functions, grows.frames, grows.entry]
  · exact vetted.frame
  · exact vetted.sized
  · exact vetted.addressable
  · exact vetted.frames
  · exact fun known member => (vetted.formals known member).mono grows.keeps
  · exact fun known => (vetted.bodies known).mono grows.keeps
  · exact vetted.entry
  · exact vetted.hosted
  · exact vetted.opened

theorem redeclare (vetted : m.Vetted)
    (known : m.function? function = some decl) (same : decl'.face = decl.face)
    (frame : decl'.frame = decl.frame)
    (formals : ∀ {v ty place}, (v, ty, place) ∈ decl'.formals → m.Holds decl'.frame v ty place)
    (body : m.Completes decl'.signature decl'.operations) (internal : decl'.isExternal = false)
    (opened : decl'.body.isSome = true → decl'.Opened) : (m.redeclare function decl').Vetted := by
  have keeps := Keeps.redeclare known same
  -- Every declaration comes from one with the same face and frame.
  have origin {f : FunctionId} {other : Declaration}
      (known' : (m.redeclare function decl').function? f = some other) :
      ∃ old, m.function? f = some old ∧ other.face = old.face ∧ other.frame = old.frame
        ∧ (other = old ∨ other = decl') := by
    rw [function?_redeclare known] at known'
    split at known'
    · next is_f =>
      cases known'
      exact ⟨decl, is_f ▸ known, same, frame, .inr rfl⟩
    · exact ⟨other, known', rfl, rfl, .inl rfl⟩
  constructor
  case values => exact vetted.values
  case frame =>
    intro f g first second id known_f known_g frame_f frame_g
    obtain ⟨_, old_f, _, same_f, _⟩ := origin known_f
    obtain ⟨_, old_g, _, same_g, _⟩ := origin known_g
    exact vetted.frame old_f old_g (same_f.symm.trans frame_f) (same_g.symm.trans frame_g)
  case sized =>
    intro f other id known' is_frame
    obtain ⟨_, old, face, same_frame, _⟩ := origin known'
    rw [layout, signature_of_face face]
    exact vetted.sized old (same_frame.symm.trans is_frame)
  case addressable =>
    intro f other known'
    obtain ⟨_, old, face, _⟩ := origin known'
    rw [layout, signature_of_face face]
    exact vetted.addressable old
  case frames =>
    obtain ⟨bound, rfl⟩ := Array.getElem?_eq_some_iff.mp known
    have small :
        function.index < (m.functions.toList.map (·.frame.isSome)).length := by simpa using bound
    have same : (m.functions.toList.map (·.frame.isSome)).set function.index decl'.frame.isSome
        = m.functions.toList.map (·.frame.isSome) := by
      convert List.set_getElem_self small using 2
      simp [frame]
    rw [Module.redeclare, Array.toList_setIfInBounds, List.map_set, same]
    exact vetted.frames
  case formals =>
    intro f other v ty place known' member
    obtain ⟨_, old, _, _, rfl | rfl⟩ := origin known'
    · exact (vetted.formals old member).mono keeps
    · exact (formals member).mono keeps
  case bodies =>
    intro f other known'
    obtain ⟨_, old, _, _, rfl | rfl⟩ := origin known'
    · exact (vetted.bodies old).mono keeps
    · exact body.mono keeps
  case entry =>
    intro f is_entry
    obtain ⟨other, known', internal, bare⟩ := vetted.entry is_entry
    obtain ⟨other', known'', face⟩ := keeps.functions known'
    exact ⟨other', known'', (isExternal_of_face face).trans internal,
      signature_of_face face ▸ bare⟩
  case hosted =>
    intro f other known' external
    obtain ⟨_, old, _, _, rfl | rfl⟩ := origin known'
    · exact vetted.hosted old external
    · cases internal.symm.trans external
  case opened =>
    intro f other known' defined
    obtain ⟨_, old, _, _, rfl | rfl⟩ := origin known'
    · exact vetted.opened old defined
    · exact opened defined

theorem declare {frames : Frames} {nextLabel : Nat} (vetted : m.Vetted)
    (declares : m.Declares decl frames) :
    { m with frames, nextLabel, functions := m.functions.push decl }.Vetted := by
  set m' := { m with frames, nextLabel, functions := m.functions.push decl }
  have origin {f : FunctionId} {other : Declaration} (known : m'.function? f = some other) :
      (f.index = m.functions.size ∧ other = decl) ∨ m.function? f = some other :=
        origin_of_push known
  have keeps : m.Keeps m' := ⟨fun found => ⟨_, found, rfl⟩,
    fun known => ⟨_, function?_push_of_known _ _ known, rfl⟩⟩
  constructor
  case values =>
    exact fun found => (vetted.values found).mono id (declares.counted ▸ Nat.le_add_right _ _)
  case frame =>
    intro f g first second frame known_f known_g frame_f frame_g
    obtain ⟨last_f, rfl⟩ | old_f := origin known_f
    · obtain ⟨last_g, _⟩ | old_g := origin known_g
      · cases f
        cases g
        simp_all
      · cases (declares.fresh frame_f).1.symm.trans (vetted.sized old_g frame_g)
    · obtain ⟨_, rfl⟩ | old_g := origin known_g
      · cases (declares.fresh frame_g).1.symm.trans (vetted.sized old_f frame_f)
      · exact vetted.frame old_f old_g frame_f frame_g
  case sized =>
    intro f other frame known is_frame
    obtain ⟨_, rfl⟩ | old := origin known
    · exact (declares.fresh is_frame).2
    · exact declares.kept (vetted.sized old is_frame)
  case addressable =>
    intro f other known
    obtain ⟨_, rfl⟩ | old := origin known
    · exact declares.addressable
    · exact vetted.addressable old
  case frames =>
    simp only [m', declares.counted, vetted.frames, Array.toList_push, List.map_append,
      List.count_append, List.map_singleton]
    cases decl.frame <;> rfl
  case formals =>
    intro f other v ty place known member
    obtain ⟨_, rfl⟩ | old := origin known
    · simp [Declaration.formals, parameters, declares.bare] at member
    · exact (vetted.formals old member).mono keeps
  case bodies =>
    intro f other known
    obtain ⟨_, rfl⟩ | old := origin known
    · rw [Declaration.operations, declares.bodiless]
      exact .nil _ _
    · exact (vetted.bodies old).mono keeps
  case entry =>
    intro f is_entry
    obtain ⟨other, known, rest⟩ := vetted.entry is_entry
    exact ⟨other, function?_push_of_known _ _ known, rest⟩
  case hosted =>
    intro f other known external
    obtain ⟨_, rfl⟩ | old := origin known
    · obtain ⟨frameless, accepted⟩ := declares.hosted external
      exact ⟨Signature.hostable_of_externalProblem? accepted, frameless, declares.bodiless⟩
    · exact vetted.hosted old external
  case opened =>
    intro f other known defined
    obtain ⟨_, rfl⟩ | old := origin known
    · simp [declares.bodiless] at defined
    · exact vetted.opened old defined

theorem step (vetted : m.Vetted) (step : m.Step m') : m'.Vetted := by
  cases step with
  | rejected => exact vetted
  | declare declares => exact vetted.declare declares
  | houses houses => exact vetted.grow (.houses houses)
  | @entry function decl known internal bare =>
    have keeps : m.Keeps { m with entry := some function } := ⟨fun found => ⟨_, found, rfl⟩,
      fun known => ⟨_, known, rfl⟩⟩
    refine { vetted with
      formals := vetted.formals, bodies :=
        fun known => (vetted.bodies known).mono keeps, entry := ?_ }
    rintro _ ⟨⟩
    exact ⟨decl, known, internal, bare⟩

end Vetted

end Module

namespace BodyBuilder
variable {b b' : BodyBuilder}

structure Vetted (b : BodyBuilder) : Prop where
  context : b.context.Vetted
  current : b.context.function? b.function = some b.decl
  undefined : b.decl.body = none
  framed : b.decl.frame.isSome = true
  opened : b.decl.Opened
  vets : ∀ operation ∈ b.operations, b.context.Vets b.decl.signature operation
  placed : b.placed = (Operation.labels b.operations).reverse
  unique : b.placed.Nodup
  used : ∀ operation ∈ b.operations, ∀ {label}, operation.goesTo? = some label →
    ∃ loc, (label, loc) ∈ b.used

theorem Vetted.grow (vetted : b.Vetted) (grows : b.context.Grows m) :
    { b with context := m, loc }.Vetted where
  context := vetted.context.grow grows
  current := by
    rw [Module.function?, grows.functions]
    exact vetted.current
  undefined := vetted.undefined
  framed := vetted.framed
  opened := vetted.opened
  vets operation member := (vetted.vets operation member).mono grows.keeps
  placed := vetted.placed
  unique := vetted.unique
  used := vetted.used

theorem Vetted.internal (vetted : b.Vetted) : b.decl.isExternal = false := by
  cases external : b.decl.isExternal with
  | false => rfl
  | true => simpa [(vetted.context.hosted vetted.current external).2.1] using vetted.framed

theorem Admits.unplaced {made : Option Value} (admits : b.Admits operation made)
    (places : operation.places? = some label) : label ∉ b.placed := by
  cases admits with
  | label unplaced =>
    obtain rfl := Option.some.inj places
    exact unplaced
  | _ => cases places

theorem Vetted.push (vetted : b.Vetted) (vets : b.context.Vets b.decl.signature operation)
    (unplaced : ∀ {label}, operation.places? = some label → label ∉ b.placed) : { b with
      items := b.items.push ⟨operation, b.loc⟩
      placed := operation.places?.elim b.placed (· :: b.placed)
      used := operation.goesTo?.elim b.used fun label => b.used.push (label, b.loc) }.Vetted := by
  have recorded : (b.items.push ⟨operation, b.loc⟩).toList.map BodyItem.operation
      = b.operations ++ [operation] := by simp [operations]
  constructor
  case context => exact vetted.context
  case current => exact vetted.current
  case undefined => exact vetted.undefined
  case framed => exact vetted.framed
  case opened => exact vetted.opened
  case vets =>
    intro other member
    rw [operations, recorded, List.mem_append, List.mem_singleton] at member
    obtain old | rfl := member
    · exact vetted.vets other old
    · exact vets
  case placed =>
    rw [operations, recorded, Operation.labels, List.filterMap_append, List.reverse_append]
    cases places : operation.places? with
    | none | some label => simpa [places, Operation.labels] using vetted.placed
  case unique =>
    cases places : operation.places? with
    | none => exact vetted.unique
    | some label => exact List.nodup_cons.mpr ⟨unplaced places, vetted.unique⟩
  case used =>
    intro other member label goes
    rw [operations, recorded, List.mem_append, List.mem_singleton] at member
    obtain old | rfl := member
    · obtain ⟨loc, listed⟩ := vetted.used other old goes
      refine ⟨loc, ?_⟩
      cases operation.goesTo? with
      | none => exact listed
      | some _ => exact Array.mem_push.mpr (.inl listed)
    · exact ⟨b.loc, by simp [goes]⟩

theorem Vetted.edit (vetted : b.Vetted) (edit : b.Edit b') : b'.Vetted := by
  cases edit with
  | note loc diagnostics grows => exact vetted.grow ⟨rfl, rfl, rfl, id, .refl _⟩
  | constant description legal rounded =>
    refine vetted.grow (.add _ ⟨rfl, by rintro _ ⟨⟩, by rintro _ ⟨⟩, ?_, ?_⟩)
    · rintro _ ⟨⟩
      exact legal
    · rintro _ ⟨⟩
      exact rounded
  | newVariable name legal =>
    exact vetted.grow (.add _ (.of_named rfl rfl (.inl rfl) (by rintro _ ⟨⟩)))
  | houses houses => exact vetted.grow (.houses houses)
  | initialized => exact vetted.grow ⟨rfl, rfl, rfl, id, .of_marks (marks_modify _ _ fun _ => rfl)⟩
  | @operation operation made admits =>
    have included :
        b.context.values.Gains (·.Vetted b.context.constants b.context.frames.sizes.size)
        (b.context.values.including made) := .including _ fun is_made => by
        obtain ⟨unnamed, nowhere, _⟩ := (is_made ▸ admits).unnamed
        exact .of_unnamed unnamed nowhere
    set values := operation.operands.foldl noteUse (b.context.values.including made)
    have counted : (b.context.values.including made).Gains
        (·.Vetted b.context.constants b.context.frames.sizes.size) values :=
          .of_marks (marks_noteUses _ _)
    have grows : b.context.Grows { b.context with values := values } :=
      ⟨rfl, rfl, rfl, id, included.trans Value.Vetted.of_core counted⟩
    have grown : { b with context.values := values }.Vetted := vetted.grow grows
    exact grown.push
      ⟨b, made, admits, rfl, counted.kept, fun known => ⟨_, known, rfl⟩⟩ admits.unplaced

theorem Vetted.edits (vetted : b.Vetted) (edits : b.Edits b') : b'.Vetted := by
  induction edits with
  | refl => exact vetted
  | tail _ edit ih => exact ih.edit edit

theorem used_of_finish (completed : (Gen.outcome Build.finish b).1.isOk = true)
    (used : (label, loc) ∈ b.used) : label ∈ b.placed := by
  rw [Build.outcome_finish] at completed
  split at completed
  · cases completed
  · next none_missing => simpa using Array.find?_eq_none.mp none_missing _ used

theorem Vetted.finish (vetted : b.Vetted) : (Gen.outcome Build.finish b).2.context.Vetted := by
  obtain ⟨_, same⟩ | ⟨completed, closed⟩ := b.context_finish
  · rw [same]
    exact vetted.context
  · rw [closed]
    refine vetted.context.redeclare vetted.current rfl rfl (fun member => ?_)
      ⟨?_, ?_, ?_⟩ vetted.internal
      fun _ => ⟨vetted.opened.length, vetted.opened.distinct, vetted.opened.returns⟩
    · have holds := vetted.context.formals vetted.current member
      exact holds
    · exact vetted.vets
    · have unique := vetted.unique
      rw [vetted.placed, List.nodup_reverse] at unique
      exact unique
    · intro operation member label goes
      obtain ⟨loc, used⟩ := vetted.used operation member goes
      have placed := used_of_finish completed used
      rw [vetted.placed, List.mem_reverse] at placed
      exact placed

end BodyBuilder

namespace Module

theorem vetted_of_initial {frame : FrameId} {frames : Nat}
    (member : value ∈ initialValues decl frame names) (blobs : ConstantPool)
    (known : frame.index < frames) : value.Vetted blobs frames := by
  obtain ⟨pos, _, named, is_named, auto⟩ := of_initial member
  refine .of_named is_named pos (.inl auto) fun {place} is_home => ?_
  obtain ⟨_, rfl, _⟩ := home_of_initial member (by simpa [home?, named?, is_named] using is_home)
  rintro _ ⟨⟩
  exact known

theorem Vetted.define (vetted : m.Vetted) {b : BodyBuilder}
    (is_open : Gen.Runs (Module.define function names line) m b m') : b.Vetted := by
  obtain ⟨decl, frame, known, is_frame, undefined, length, rfl⟩ := define_ok is_open
  simp only [opening, including_returnBuffer]
  have grown : { m with values := m.values.addAll (initialValues decl frame names) }.Vetted :=
    vetted.grow ⟨rfl, rfl, rfl, id, .addAll _ fun _ member =>
      vetted_of_initial member _ (vetted.framed known is_frame)⟩
  refine ⟨?_, (function?_redeclare known function).trans (if_pos rfl),
    undefined, by simp [openedDeclaration, is_frame], opened_openedDeclaration _ _ _,
    by rintro _ ⟨⟩, rfl, .nil, by rintro _ ⟨⟩⟩
  refine grown.redeclare known rfl rfl (fun {v ty place} member => ?_) ?_ ?_
    fun _ => opened_openedDeclaration _ _ _
  · obtain ⟨value, found, is_ty, named, home⟩ := get?_formal length member
    refine ⟨value, found, is_ty, named, fun {id} is_frame' => ?_⟩
    obtain rfl := Option.mem_unique is_frame is_frame'
    exact home
  · have bodiless : (openedDeclaration decl frame m.values.size).operations = [] := by
      simp [openedDeclaration, Declaration.operations, undefined]
    rw [bodiless]
    exact .nil _ _
  · cases external : decl.isExternal with
    | false => exact external
    | true => cases is_frame.symm.trans (vetted.hosted known external).2.1

theorem Vetted.perform (vetted : m.Vetted) (call : ModuleCall) : (m.perform call).Vetted := by
  cases call with
  | define function names line body completed =>
    simp only [Module.perform]
    rcases is_open : Gen.outcome (Module.define function names line) m with ⟨_ | b, m'⟩
    · rw [(define_error is_open).1]
      exact vetted
    · have edited := (vetted.define is_open).edits (b.edits_perform body)
      cases completed with
      | false => exact edited.context
      | true => exact edited.finish
  | _ => exact vetted.step (m.step_perform rfl)

theorem vetted_build (options : Options) (file : String) (calls : List ModuleCall) :
    (build options file calls).Vetted := by
  have performed {m : Module} (vetted : m.Vetted) : (calls.foldl Module.perform m).Vetted := by
    induction calls generalizing m with
    | nil => exact vetted
    | cons call rest ih => exact ih (vetted.perform call)
  exact performed (.start options file)

end Module

end RegisterBackend
