import RegisterBackend.Proofs.Bookkeeping
import RegisterBackend.Proofs.Vetting

/-!
What every module owns when it is built. The frame of a function has no homes before its body is
opened, which is why a body must not be opened twice.
-/
namespace RegisterBackend

open ValueStore CallLayout List Option Convention

variable {b b' : BodyBuilder} {m m' : Module} {opened opened' : List FunctionId}
  {pending pending' : List Operation} {bytes : List UInt8} {decl decl' : Declaration}
  {element ty : Ty} {function : FunctionId} {file name : String} {home : Position} {line : Nat}
  {loc : Location} {operation : Operation} {v : ValueId} {value : Value} {values : ValueStore}

def Operation.results (operations : List Operation) : List ValueId := operations.filterMap result?

/-- The home is in memory that was handed out: in the header or the arguments of a function whose
body was opened, in the static segment, or in a blob. -/
def Module.Provides (m : Module) (opened : List FunctionId) : Position → Prop
  | .stack ⟨.frame frame, offset⟩ => ∃ function ∈ opened, ∃ decl, m.function? function = some decl
      ∧ decl.frame = some frame ∧ offset < decl.layout.argumentsEnd
  | .static offset => offset < m.statics.used
  | .constant id => id.index < m.constants.blobs.size
  | _ => False

def Module.Hosts (m : Module) (v : ValueId) : Prop :=
  ∃ f decl ty place, m.function? f = some decl ∧ (v, ty, place) ∈ decl.formals

/-- A module in which the bodies of the functions `opened` were opened and one with the operations
`pending` is under construction. -/
structure Module.Orderly (m : Module) (opened : List FunctionId) (pending : List Operation) :
    Prop where
  provided : ∀ {v value home}, m.values.get? v = some value → value.home? = some home →
    m.Provides opened home
  distinct : ∀ {v w value other home}, m.values.get? v = some value → m.values.get? w = some other →
    value.home? = some home → other.home? = some home → v = w
  hosts : ∀ {v value slot}, m.values.get? v = some value →
    value.home? = some (.stack slot) → m.Hosts v
  known : ∀ f ∈ opened, ∃ decl, m.function? f = some decl ∧ decl.Opened
  unopened : ∀ {f decl}, m.function? f = some decl → f ∉ opened →
    decl.params = [] ∧ decl.returnPointer = none
  results : (Operation.results (m.operations ++ pending)).Nodup
  made : ∀ {v}, v ∈ Operation.results (m.operations ++ pending) →
    ∃ value, m.values.get? v = some value ∧ value.isUnnamed = true

namespace Module.Orderly

theorem start (options : Options) (file : String) : (Module.start options file).Orderly [] [] where
  provided found := by simp at found
  distinct found := by simp at found
  hosts found := by simp at found
  known := by simp
  unopened known := by simp at known
  results := by simp [Module.start, Module.operations, Operation.results]
  made member := by simp [Module.start, Module.operations, Operation.results] at member

theorem provides_mono (provided : m.Provides opened home) (wider : opened ⊆ opened')
    (functions : ∀ {f decl}, m.function? f = some decl → ∃ decl', m'.function? f = some decl'
      ∧ decl'.frame = decl.frame ∧ decl'.signature = decl.signature)
    (statics : m.statics.used ≤ m'.statics.used)
    (constants : m.constants.blobs.size ≤ m'.constants.blobs.size) : m'.Provides opened' home := by
  match home, provided with
  | .stack ⟨.frame frame, offset⟩, ⟨f, member, decl, known, is_frame, inside⟩ =>
    obtain ⟨decl', known', frame', sig⟩ := functions known
    refine ⟨f, wider member, decl', known', frame'.trans is_frame, ?_⟩
    simpa [Declaration.layout, sig] using inside
  | .static offset, inside => exact Nat.lt_of_lt_of_le inside statics
  | .constant id, inside => exact Nat.lt_of_lt_of_le inside constants

section
variable (orderly : m.Orderly opened pending)
include orderly

theorem marked (marks : m.values.Marks values) : { m with values }.Orderly opened pending := by
  have gains : m.values.Gains (fun _ => False) values := .of_marks marks
  have before {v : ValueId} {value' : Value} (found' : values.get? v = some value') :
      ∃ value, m.values.get? v = some value ∧ value'.home? = value.home? := by
    obtain ⟨value, found, core⟩ | ⟨_, absurd⟩ := gains.new found'
    · exact ⟨value, found, Value.home?_of_core core⟩
    · exact absurd.elim
  refine { orderly with provided := ?_, distinct := ?_, hosts := ?_, made := ?_ }
  · intro v value' home found' is_home
    obtain ⟨value, found, same⟩ := before found'
    exact orderly.provided found (same ▸ is_home)
  · intro v w value' other' home found' found_other' is_home is_home'
    obtain ⟨value, found, same⟩ := before found'
    obtain ⟨other, found_other, same'⟩ := before found_other'
    exact orderly.distinct found found_other (same ▸ is_home) (same' ▸ is_home')
  · intro v value' slot found' is_home
    obtain ⟨value, found, same⟩ := before found'
    exact orderly.hosts found (same ▸ is_home)
  · intro v member
    obtain ⟨value, found, unnamed⟩ := orderly.made member
    obtain ⟨value', found', core⟩ := gains.kept found
    refine ⟨value', found', ?_⟩
    rwa [Value.isUnnamed, Value.kind_of_core core]

theorem add (provided : ∀ {home}, value.home? = some home → m.Provides opened home)
    (unclaimed : ∀ {w other home}, value.home? = some home → m.values.get? w = some other →
      other.home? ≠ some home)
    (hosts : ∀ {slot}, value.home? = some (.stack slot) → m.Hosts m.values.next) :
    { m with values := (m.values.add value).2 }.Orderly opened pending := by
  have gains : m.values.Gains (fun _ => True) (m.values.add value).2 := .add _ trivial
  have origin {v : ValueId} {value' : Value}
      (found' : (m.values.add value).2.get? v = some value') :
      (v = m.values.next ∧ value' = value) ∨ m.values.get? v = some value' := by
    rw [get?_add] at found'
    split at found'
    · next same => exact .inl ⟨same, (Option.some.inj found').symm⟩
    · exact .inr found'
  refine { orderly with provided := ?_, distinct := ?_, hosts := ?_, made := ?_ }
  · intro v value' home found' is_home
    obtain ⟨_, rfl⟩ | found := origin found'
    · exact provided is_home
    · exact orderly.provided found is_home
  · intro v w first second home found_v found_w is_home is_home'
    obtain ⟨same, rfl⟩ | old_v := origin found_v
    · obtain ⟨same', rfl⟩ | old_w := origin found_w
      · rw [same, same']
      · exact (unclaimed is_home old_w is_home').elim
    · obtain ⟨_, rfl⟩ | old_w := origin found_w
      · exact (unclaimed is_home' old_v is_home).elim
      · exact orderly.distinct old_v old_w is_home is_home'
  · intro v value' slot found' is_home
    obtain ⟨rfl, rfl⟩ | found := origin found'
    · exact hosts is_home
    · exact orderly.hosts found is_home
  · intro v member
    obtain ⟨old, found, unnamed⟩ := orderly.made member
    obtain ⟨value', found', core⟩ := gains.kept found
    refine ⟨value', found', ?_⟩
    rwa [Value.isUnnamed, Value.kind_of_core core]

theorem add_homeless (homeless : value.home? = none) :
    { m with values := (m.values.add value).2 }.Orderly opened pending :=
  orderly.add (by simp [homeless]) (by simp [homeless]) (by simp [homeless])

theorem addAll {values : List Value}
    (provided : ∀ value ∈ values, ∀ {home}, value.home? = some home → m.Provides opened home)
    (unclaimed : ∀ value ∈ values, ∀ {w other home}, value.home? = some home →
      m.values.get? w = some other → other.home? ≠ some home)
    (distinct : values.Pairwise fun a b => ∀ {home}, a.home? = some home → b.home? ≠ some home)
    (hosts : ∀ i < values.length, m.Hosts ⟨m.values.size + i⟩) :
    { m with values := m.values.addAll values }.Orderly opened pending := by
  induction values generalizing m with
  | nil => exact orderly
  | cons value rest ih =>
    rw [forall_mem_cons] at provided unclaimed
    rw [pairwise_cons] at distinct
    have first := orderly.add provided.1 unclaimed.1 fun _ => hosts 0 (Nat.succ_pos _)
    refine ih first provided.2 (fun later member {w other home} is_home found => ?_)
      distinct.2 fun i small => ?_
    · rw [get?_add] at found
      split at found
      · cases found
        exact fun same => distinct.1 later member same is_home
      · exact unclaimed.2 later member is_home found
    · have size : (m.values.add value).2.size + i = m.values.size + (i + 1) := by
        simp [ValueStore.size, ValueStore.add]
        omega
      exact size ▸ hosts (i + 1) (Nat.succ_lt_succ small)

theorem grow (statics : StaticSegment) (constants : ConstantPool)
    (used : m.statics.used ≤ statics.used) (kept : m.constants.blobs.size ≤ constants.blobs.size) :
    { m with statics, constants }.Orderly opened pending :=
  { orderly with
    provided := fun found is_home => provides_mono (orderly.provided found is_home)
      (List.Subset.refl _)
      (fun known => ⟨_, known, rfl, rfl⟩) used kept }

theorem push (operation : Operation)
    (fresh : ∀ {v}, operation.result? = some v → v ∉ Operation.results (m.operations ++ pending)
      ∧ ∃ value, m.values.get? v = some value ∧ value.isUnnamed = true) :
    m.Orderly opened (pending ++ [operation]) := by
  cases is_result : operation.result? with
  | none =>
    have same : Operation.results (m.operations ++ (pending ++ [operation]))
        = Operation.results (m.operations ++ pending) := by
      simp [Operation.results, filterMap_append, is_result]
    exact { orderly with
      results := by rw [same]; exact orderly.results
      made := by rw [same]; exact orderly.made }
  | some v =>
    have grown : Operation.results (m.operations ++ (pending ++ [operation]))
        = Operation.results (m.operations ++ pending) ++ [v] := by
      simp [Operation.results, filterMap_append, is_result]
    obtain ⟨new, known⟩ := fresh is_result
    refine { orderly with results := ?_, made := fun {w} member => ?_ }
    · rw [grown, ← concat_eq_append]
      exact orderly.results.concat new
    · rw [grown, mem_append, mem_singleton] at member
      obtain old | rfl := member
      · exact orderly.made old
      · exact known

end

theorem houses (orderly : m.Orderly opened pending) (houses : m.Houses m') :
    m'.Orderly opened pending := by
  cases houses with
  | @static ty offset statics name legal given =>
    obtain ⟨_, same⟩ := Option.ite_none_right_eq_some.mp given
    cases same
    have positive : 0 < min (max ty.align 1) wordSize := by simp [wordSize]
    have after := le_alignUp m.statics.used positive
    have grown :=
      orderly.grow ⟨_⟩ m.constants (after.trans (Nat.le_add_right _ (max ty.size 1))) le_rfl
    refine grown.add ?_ ?_ (by rintro _ ⟨⟩)
    · rintro _ ⟨⟩
      simp only [Module.Provides]
      omega
    · rintro w other _ ⟨⟩ found is_home
      have inside : alignUp m.statics.used _ < m.statics.used := orderly.provided found is_home
      omega
  | data ty bytes =>
    have grown : { m with constants := (m.constants.add (Module.paddedBlob bytes)).2 }.Orderly
        opened pending :=
      orderly.grow m.statics _ le_rfl (by simp [ConstantPool.add])
    refine grown.add ?_ ?_ (by rintro _ ⟨⟩)
    · rintro _ ⟨⟩
      simp [Module.Provides, ConstantPool.add]
    · rintro w other _ ⟨⟩ found is_home
      have inside : (m.constants.add (Module.paddedBlob bytes)).1.index < m.constants.blobs.size :=
        orderly.provided found is_home
      simp [ConstantPool.add] at inside

theorem redeclare (orderly : m.Orderly opened pending) (known : m.function? function = some decl)
    (frame : decl'.frame = decl.frame) (sig : decl'.signature = decl.signature)
    (moved : (decl'.operations ++ pending').Perm (decl.operations ++ pending))
    (formals : decl.formals ⊆ decl'.formals) (wider : opened ⊆ opened')
    (others : ∀ {f}, f ≠ function → f ∈ opened' → f ∈ opened)
    (is_open : function ∈ opened' → decl'.Opened)
    (closed : function ∉ opened' → decl'.params = [] ∧ decl'.returnPointer = none) :
    (m.redeclare function decl').Orderly opened' pending' := by
  have results : (Operation.results ((m.redeclare function decl').operations ++ pending')).Perm
      (Operation.results (m.operations ++ pending)) :=
        (operations_redeclare known moved).filterMap _
  have later {f : FunctionId} {old : Declaration} (old_known : m.function? f = some old) :
      ∃ new, (m.redeclare function decl').function? f = some new ∧ new.frame = old.frame
        ∧ new.signature = old.signature ∧ old.formals ⊆ new.formals := by
    rw [function?_redeclare known]
    split
    · next same =>
      subst same
      obtain rfl := mem_unique known old_known
      exact ⟨decl', rfl, frame, sig, formals⟩
    · exact ⟨old, old_known, rfl, rfl, List.Subset.refl _⟩
  constructor
  case provided =>
    intro v value home found is_home
    refine provides_mono (orderly.provided found is_home) wider (fun known => ?_) le_rfl le_rfl
    obtain ⟨new, known', frame, sig, _⟩ := later known
    exact ⟨new, known', frame, sig⟩
  case distinct => exact orderly.distinct
  case hosts =>
    intro v value slot found is_home
    obtain ⟨f, old, ty, place, old_known, member⟩ := orderly.hosts found is_home
    obtain ⟨new, known', _, _, wider⟩ := later old_known
    exact ⟨f, new, ty, place, known', wider member⟩
  case known =>
    intro f member
    rw [function?_redeclare known]
    split
    · next same => exact ⟨decl', rfl, is_open (same ▸ member)⟩
    · next different => exact orderly.known f (others different member)
  case unopened =>
    intro f other known' outside
    rw [function?_redeclare known] at known'
    split at known'
    · next same =>
      cases known'
      exact closed (same ▸ outside)
    · exact orderly.unopened known' fun member => outside (wider member)
  case results => exact results.nodup_iff.mpr orderly.results
  case made =>
    intro v member
    exact orderly.made (results.mem_iff.mp member)

/-- In whatever order the bodies were opened. -/
theorem reorder (orderly : m.Orderly opened pending) (same : opened.Perm opened') :
    m.Orderly opened' pending where
  provided found is_home := provides_mono (orderly.provided found is_home) same.subset
    (fun known => ⟨_, known, rfl, rfl⟩) le_rfl le_rfl
  distinct := orderly.distinct
  hosts := orderly.hosts
  known f member := orderly.known f (same.mem_iff.mpr member)
  unopened known closed := orderly.unopened known fun member => closed (same.mem_iff.mp member)
  results := orderly.results
  made := orderly.made

end Module.Orderly

namespace BodyBuilder

theorem Admits.result? {made : Option Value} (admits : b.Admits operation made) :
    operation.result? = made.map fun _ => b.next := by
  cases admits with
  | @call _ _ _ _ _ makes _ | @callIndirect _ _ _ _ _ _ _ makes _ => cases makes <;> rfl
  | _ => rfl

end BodyBuilder

namespace Module.Orderly

theorem edit (orderly : b.context.Orderly opened b.operations) (edit : b.Edit b') :
    b'.context.Orderly opened b'.operations := by
  cases edit with
  | note loc diagnostics grows => exact { orderly with }
  | constant description legal | newVariable name legal => exact orderly.add_homeless rfl
  | houses houses => exact orderly.houses houses
  | initialized => exact orderly.marked (marks_modify _ _ fun _ => rfl)
  | @operation operation made admits =>
    have unmade : b.next ∉ Operation.results (b.context.operations ++ b.operations) := by
      intro member
      obtain ⟨value, found, _⟩ := orderly.made member
      simp [BodyBuilder.next, get?_next] at found
    have included : { b.context with values := b.context.values.including made }.Orderly opened
        b.operations := by
      cases made with
      | none => exact orderly
      | some value => exact orderly.add_homeless admits.unnamed.2.2
    have pushed := included.push operation fun {v} is_result => by
      rw [admits.result?] at is_result
      obtain ⟨value, rfl, rfl⟩ := map_eq_some_iff.mp is_result
      exact ⟨unmade, value, by simp [get?_including, BodyBuilder.next], admits.unnamed.1⟩
    exact b.operations_push ⟨operation, b.loc⟩ ▸ pushed.marked (marks_noteUses _ _)

theorem edits (orderly : b.context.Orderly opened b.operations) (edits : b.Edits b') :
    b'.context.Orderly opened b'.operations := by
  induction edits with
  | refl => exact orderly
  | tail _ edit ih => exact ih.edit edit

theorem abandon (orderly : m.Orderly opened pending) : m.Orderly opened [] := by
  have fewer : (Operation.results (m.operations ++ [])).Sublist
      (Operation.results (m.operations ++ pending)) :=
    (List.Sublist.append_left (nil_sublist _) _).filterMap _
  exact { orderly with
    results := orderly.results.sublist fewer
    made := fun member => orderly.made (fewer.subset member) }

theorem finish (vetted : b.Vetted) (orderly : b.context.Orderly opened b.operations) :
    (Gen.outcome Build.finish b).2.context.Orderly opened [] := by
  obtain ⟨_, same⟩ | ⟨_, closed⟩ := b.context_finish
  · rw [same]
    exact orderly.abandon
  · have unopened := orderly.unopened vetted.current
    rw [closed]
    refine orderly.redeclare vetted.current rfl rfl ?_ (List.Subset.refl _)
      (List.Subset.refl _) (fun _ => id)
      (fun member => ?_) unopened
    · simp [Declaration.operations, vetted.undefined, BodyBuilder.operations]
    · obtain ⟨_, known, is_open⟩ := orderly.known _ member
      obtain rfl := mem_unique vetted.current known
      exact ⟨is_open.length, is_open.distinct, is_open.returns⟩

theorem define (vetted : m.Vetted) (orderly : m.Orderly opened []) {names : List String}
    (is_open : Gen.Runs (Module.define function names line) m b m') (first : function ∉ opened) :
    b.context.Orderly (function :: opened) b.operations := by
  obtain ⟨decl, frame, known, is_frame, undefined, length, rfl⟩ := define_ok is_open
  simp only [opening, including_returnBuffer]
  obtain ⟨bare, pointerless⟩ := orderly.unopened known first
  have opens : (m.redeclare function (openedDeclaration decl frame m.values.size)).Orderly
      (function :: opened) [] := by
    refine orderly.redeclare known rfl rfl (.refl _) ?_ (subset_cons_self _ _)
      (fun different member => (mem_cons.mp member).resolve_left different)
      (fun _ => opened_openedDeclaration _ _ _)
      fun outside => absurd mem_cons_self outside
    simp [Declaration.formals, Declaration.parameters, bare, pointerless]
  have current :
      (m.redeclare function (openedDeclaration decl frame m.values.size)).function? function
      = some (openedDeclaration decl frame m.values.size) :=
        (function?_redeclare known function).trans (if_pos rfl)
  refine opens.addAll ?_ ?_ (homes_of_initial length) fun i small => ?_
  · intro value member home is_home
    obtain ⟨offset, rfl, inside⟩ := home_of_initial member is_home
    exact ⟨function, by simp, _, current, is_frame, inside⟩
  · intro value member w other home is_home found same
    obtain ⟨offset, rfl, _⟩ := home_of_initial member is_home
    -- A home in this frame would belong to a body that was opened before.
    obtain ⟨g, before, decl', known', is_frame', _⟩ := orderly.provided found same
    exact first (vetted.frame known known' is_frame is_frame' ▸ before)
  · obtain ⟨ty, place, member⟩ :=
      formal_of_initial length (List.getElem?_eq_getElem small) m.values.size
    exact ⟨function, _, ty, place, current, member⟩

section
variable (orderly : m.Orderly opened [])
include orderly

theorem step (step : m.Step m') : m'.Orderly opened [] := by
  cases step with
  | rejected => exact orderly
  | @declare decl frames declares =>
    have kept {f : FunctionId} {old : Declaration} (known : m.function? f = some old) :
        { m with
          frames
          nextLabel := m.nextLabel + 1 + 1
          functions := m.functions.push decl }.function? f = some old :=
      function?_push_of_known _ _ known
    constructor
    case provided =>
      exact fun found is_home => provides_mono (orderly.provided found is_home) (List.Subset.refl _)
        (fun known => ⟨_, kept known, rfl, rfl⟩) le_rfl le_rfl
    case distinct => exact orderly.distinct
    case hosts =>
      intro v value slot found is_home
      obtain ⟨f, old, ty, place, known, member⟩ := orderly.hosts found is_home
      exact ⟨f, old, ty, place, kept known, member⟩
    case known =>
      intro f member
      obtain ⟨old, known, is_open⟩ := orderly.known f member
      exact ⟨old, kept known, is_open⟩
    case unopened =>
      intro f other known closed
      obtain ⟨_, rfl⟩ | old := origin_of_push known
      · exact declares.bare
      · exact orderly.unopened old closed
    all_goals rw [declares.operations_push]
    · exact orderly.results
    · exact orderly.made
  | houses houses => exact orderly.houses houses
  | entry => exact { orderly with }

theorem perform (vetted : m.Vetted) (call : ModuleCall) (once : (m.opened [call] ++ opened).Nodup) :
    (m.perform call).Orderly (m.opened [call] ++ opened) [] := by
  cases call with
  | define function names line body completed =>
    simp only [Module.perform, Module.opened, append_nil] at once ⊢
    rcases is_open : Gen.outcome (Module.define function names line) m with ⟨e | b, m'⟩
    · rw [(define_error is_open).1]
      simpa [is_open, Except.isOk, Except.toBool] using orderly
    · simp only [is_open, Except.isOk, Except.toBool, ↓reduceIte, cons_append, nil_append,
        nodup_cons] at once ⊢
      have edited := (orderly.define vetted is_open once.1).edits (b.edits_perform body)
      cases completed with
      | false => exact edited.abandon
      | true => exact edited.finish ((vetted.define is_open).edits (b.edits_perform body))
  | _ => exact orderly.step (m.step_perform rfl)

theorem performAll (vetted : m.Vetted) (calls : List ModuleCall)
    (once : (m.opened calls ++ opened).Nodup) :
    (calls.foldl Module.perform m).Orderly (m.opened calls ++ opened) [] := by
  induction calls generalizing m opened with
  | nil => exact orderly
  | cons call rest ih =>
    have reordered := opened_cons m call rest opened
    rw [← reordered.nodup_iff] at once
    exact (ih (orderly.perform vetted call once.of_append_right)
      (vetted.perform call) once).reorder reordered

end

end Module.Orderly

namespace Module

theorem occupant?_context (m : Module) (r : Register) : m.context.registers.occupant? r = none := by
  obtain ⟨bank, id⟩ := r
  cases bank <;>
    simp only [Module.context, RegisterFile.occupant?, RegisterFile.empty, RegisterFile.occupants,
      Vector.getElem?_replicate] <;>
    split <;> rfl

theorem lowered_of_finish {program : Program} (finished : m.finish = .ok program) :
    ∃ ranges c, Gen.Runs (Gen.lowerModule m.functions m.entry) m.context ranges c
      ∧ program.instrs = c.code.toList ∧ program.layout = ⟨c.frames.sizes, c.statics.size⟩
      ∧ program.blobs = c.constants.toList
      ∧ program.functions = (m.functions.toList.zipWith programFunction? ranges).filterMap id := by
  unfold finish at finished
  split at finished
  · cases finished
  · split at finished
    · cases finished
    · next ranges c run =>
      split at finished
      · cases finished
      · cases finished
        exact ⟨ranges, c, run, rfl, rfl, rfl, rfl⟩

theorem exists_program {P : Program → Prop} [DecidablePred P]
    (checked : m.finish.toOption.map (fun program => decide (P program)) = some true) :
    ∃ program, m.finish = .ok program ∧ P program := by
  cases finished : m.finish with
  | error fault => simp [finished, Except.toOption] at checked
  | ok program => exact ⟨program, rfl, by simpa [finished, Except.toOption] using checked⟩

theorem defined_of_finish {program : Program} (finished : m.finish = .ok program)
    (known : m.function? f = some decl) (internal : decl.isExternal = false) :
    decl.body.isSome = true := by
  unfold finish at finished
  split at finished
  · cases finished
  · next all_defined =>
    have listed : decl ∈ m.functions.toList := by simpa using Array.mem_of_getElem? known
    simpa [internal, Declaration.isDefined, isSome_iff_ne_none] using
      List.find?_eq_none.mp all_defined decl listed

theorem stopped_of_finish {fault : Fault} (stopped : m.finish = .error fault) :
    (∃ decl : Declaration, fault = .failed (.rejected decl.loc (.neverDefined decl.name)))
      ∨ fault = .overflow
      ∨ ∃ c, Gen.outcome (Gen.lowerModule m.functions m.entry) m.context = (.error fault, c) := by
  unfold finish at stopped
  split at stopped
  · cases stopped
    exact .inl ⟨_, rfl⟩
  · split at stopped
    · next c failed =>
      cases stopped
      exact .inr (.inr ⟨c, failed⟩)
    · split at stopped
      · cases stopped
        exact .inr (.inl rfl)
      · cases stopped

theorem orderly_build {options : Options} {calls : List ModuleCall}
    (once : ((Module.start options file).opened calls).Nodup) :
    (build options file calls).Orderly ((Module.start options file).opened calls) [] := by
  simpa [build] using (Orderly.start options file).performAll (.start options file) calls
    (by simpa using once)

end Module

end RegisterBackend
