import RegisterBackend.Module.Program
import RegisterBackend.Proofs.Construction

/-!
Where the values of a module come from. Construction only adds values and counts their uses; the
first values of a body are its parameters and the address of the buffer for its result. A call that
opens no body is one of a few steps.
-/
namespace RegisterBackend

open ValueStore CallLayout List Option Convention

variable {b : BodyBuilder} {m : Module} {pending pending' : List Operation}
  {decl decl' other : Declaration} {ty : Ty} {function f : FunctionId} {frames : Frames}
  {home : Position} {nextLabel : Nat} {operation : Operation} {place : ArgumentPlace} {v : ValueId}
  {value : Value} {values : ValueStore} {name : String}

def Declaration.operations (decl : Declaration) : List Operation :=
  (decl.body.getD []).map BodyItem.operation

abbrev Declaration.parameters (decl : Declaration) : List (ValueId × Ty × ArgumentPlace) :=
  decl.params.zip (decl.signature.params.zip decl.layout.arguments)

def Module.operations (m : Module) : List Operation :=
  m.functions.toList.flatMap Declaration.operations

namespace Value

section
variable {value' : Value} (same : value'.core = value.core)
include same

theorem kind_of_core : value'.kind = value.kind := by
  have kind : value'.core.kind = value.core.kind := by rw [same]
  exact kind

theorem ty_of_core : value'.ty = value.ty := by
  have ty : value'.core.ty = value.core.ty := by rw [same]
  exact ty

theorem position_of_core : value'.position = value.position := by
  have pos : value'.core.position = value.core.position := by rw [same]
  exact pos

theorem named?_of_core : value'.named? = value.named? := by simp [named?, kind_of_core same]

theorem home?_of_core : value'.home? = value.home? := by simp [home?, named?_of_core same]

theorem constant?_of_core : value'.constant? = value.constant? := by
  simp [constant?, kind_of_core same]

end

theorem kinds_of_isUnnamed (unnamed : value.isUnnamed = true) :
    value.named? = none ∧ value.constant? = none := by
  cases h : value.kind <;> simp_all [isUnnamed, named?, constant?]

end Value

namespace ValueStore

/-- The values of a store are all in another, apart from what changes with use, and whatever
else is there is of a kind. -/
structure Gains (fresh : Value → Prop) (s s' : ValueStore) : Prop where
  kept : ∀ {v value}, s.get? v = some value →
    ∃ value', s'.get? v = some value' ∧ value'.core = value.core
  new : ∀ {v value'}, s'.get? v = some value' →
    (∃ value, s.get? v = some value ∧ value'.core = value.core) ∨ (s.get? v = none ∧ fresh value')

namespace Gains
variable {fresh : Value → Prop} {a b c : ValueStore}

theorem of_marks (marks : a.Marks b) : Gains fresh a b where
  kept {v value} found := by
    have same := marks v
    rwa [found, map_some, map_eq_some_iff] at same
  new {v value'} found' := by
    have same := marks v
    rw [found', map_some, eq_comm, map_eq_some_iff] at same
    obtain ⟨value, found, core⟩ := same
    exact .inl ⟨value, found, core.symm⟩

theorem refl (a : ValueStore) : Gains fresh a a := of_marks (.refl a)

theorem trans (alike : ∀ {value value'}, value'.core = value.core → fresh value → fresh value')
    (first : Gains fresh a b) (second : Gains fresh b c) : Gains fresh a c where
  kept found := by
    obtain ⟨_, found', core⟩ := first.kept found
    obtain ⟨value, found'', core'⟩ := second.kept found'
    exact ⟨value, found'', core'.trans core⟩
  new found := by
    obtain ⟨_, found', core'⟩ | ⟨absent, new⟩ := second.new found
    · obtain ⟨value, found'', core⟩ | ⟨absent, new⟩ := first.new found'
      · exact .inl ⟨value, found'', core'.trans core⟩
      · exact .inr ⟨absent, alike core' new⟩
    · refine .inr ⟨eq_none_iff_forall_ne_some.mpr fun value old => ?_, new⟩
      obtain ⟨_, found', _⟩ := first.kept old
      cases absent.symm.trans found'

theorem including (s : ValueStore) {made : Option Value}
    (new : ∀ {value}, made = some value → fresh value) : Gains fresh s (s.including made) where
  kept {v value} found := by
    refine ⟨value, ?_, rfl⟩
    rw [get?_including, if_neg]
    · exact found
    · rintro rfl
      simp [get?_next] at found
  new {v value} found := by
    rw [get?_including] at found
    split at found
    · next is_next => exact .inr ⟨is_next ▸ get?_next s, new found⟩
    · exact .inl ⟨value, found, rfl⟩

theorem add (s : ValueStore) (new : fresh value) : Gains fresh s (s.add value).2 :=
  show Gains fresh s (s.including (some value)) from including s fun same =>
    Option.some.inj same ▸ new

theorem addAll (s : ValueStore) {values : List Value} (new : ∀ value ∈ values, fresh value) :
    Gains fresh s (s.addAll values) where
  kept {v value} found := by
    have small : v.index < s.size := (Array.getElem?_eq_some_iff.mp found).1
    exact ⟨value, by rw [get?_addAll, if_pos small, found], rfl⟩
  new {v value} found := by
    rw [get?_addAll] at found
    split at found
    · exact .inl ⟨value, found, rfl⟩
    · next large =>
      refine .inr ⟨?_, new value (mem_of_getElem? found)⟩
      simpa [get?, size] using large

end Gains

end ValueStore

namespace Module

def redeclare (m : Module) (function : FunctionId) (decl : Declaration) : Module :=
  { m with functions := m.functions.setIfInBounds function.index decl }

theorem function?_redeclare (known : m.function? function = some decl) (g : FunctionId) :
    (m.redeclare function decl').function? g = if g
    = function then some decl' else m.function? g := by
  have bound : function.index < m.functions.size := (Array.getElem?_eq_some_iff.mp known).1
  by_cases same : g = function
  · simp [redeclare, function?, same, bound]
  · have : function.index ≠ g.index := by
      intro eq
      exact same (by cases function; cases g; simp_all)
    simp [redeclare, function?, same, this]

theorem operations_redeclare (known : m.function? function = some decl)
    (moved : (decl'.operations ++ pending').Perm (decl.operations ++ pending)) :
    ((m.redeclare function decl').operations ++ pending').Perm (m.operations ++ pending) := by
  obtain ⟨bound, is_decl⟩ := Array.getElem?_eq_some_iff.mp known
  have small : function.index < m.functions.toList.length := by simpa using bound
  have before : m.functions.toList = m.functions.toList.take function.index
      ++ decl :: m.functions.toList.drop (function.index + 1) := by
    rw [← is_decl, ← Array.getElem_toList, cons_getElem_drop_succ, take_append_drop]
  have after : (m.redeclare function decl').functions.toList
      = m.functions.toList.take function.index
      ++ decl' :: m.functions.toList.drop (function.index + 1) := by
    rw [redeclare, Array.toList_setIfInBounds, set_eq_take_append_cons_drop, if_pos small]
  rw [Module.operations, Module.operations, after]
  nth_rewrite 3 [before]
  rw [← Multiset.coe_eq_coe] at moved ⊢
  simp only [flatMap_append, flatMap_cons, ← Multiset.coe_add] at moved ⊢
  set early : Multiset Operation :=
    ↑(flatMap Declaration.operations (List.take function.index m.functions.toList))
  set late : Multiset Operation :=
    ↑(flatMap Declaration.operations (List.drop (function.index + 1) m.functions.toList))
  calc early + (↑decl'.operations + late) + ↑pending'
      = early + late + (↑decl'.operations + ↑pending') := by abel
    _ = early + late + (↑decl.operations + ↑pending) := by rw [moved]
    _ = early + (↑decl.operations + late) + ↑pending := by abel

theorem origin_of_push
    (known : { m with frames, nextLabel, functions := m.functions.push decl }.function? f
      = some other) :
    (f.index = m.functions.size ∧ other = decl) ∨ m.function? f = some other := by
  simp only [Module.function?, Array.getElem?_push] at known
  split at known
  · next last => exact .inl ⟨last, (Option.some.inj known).symm⟩
  · exact .inr known

theorem function?_push_of_known (frames : Frames) (nextLabel : Nat)
    (known : m.function? f = some other) :
    { m with frames, nextLabel, functions := m.functions.push decl }.function? f = some other := by
  have bound : f.index < m.functions.size := (Array.getElem?_eq_some_iff.mp known).1
  simp only [Module.function?, Array.getElem?_push_lt bound]
  rwa [← Array.getElem?_eq_getElem bound]

theorem paddedBlob_ne_nil (bytes : List UInt8) : Module.paddedBlob bytes ≠ [] := by
  have words : max bytes.length 1 ≤ alignUp (max bytes.length 1) wordSize :=
    le_alignUp _ (by simp [wordSize])
  intro empty
  have : (Module.paddedBlob bytes).length = 0 := by rw [empty]; rfl
  simp only [Module.paddedBlob, length_append, length_replicate] at this
  omega

end Module

namespace BodyBuilder

theorem Admits.unnamed (admits : b.Admits operation (some value)) :
    value.isUnnamed = true ∧ value.position = none ∧ value.home? = none := by
  generalize is_made : some value = made at admits
  cases admits with
  | @call _ _ _ _ _ makes _ | @callIndirect _ _ _ _ _ _ _ makes _ =>
    cases makes with
    | false => cases is_made
    | true => cases is_made; exact ⟨rfl, rfl, rfl⟩
  | _ => cases is_made <;> exact ⟨rfl, rfl, rfl⟩

def operations (b : BodyBuilder) : List Operation := b.items.toList.map BodyItem.operation

theorem operations_push (b : BodyBuilder) (item : BodyItem) :
    { b with items := b.items.push item }.operations = b.operations ++ [item.operation] := by
  simp [operations]

theorem context_finish (b : BodyBuilder) :
    ((Gen.outcome Build.finish b).1.isOk = false ∧ (Gen.outcome Build.finish b).2 = b)
      ∨ ((Gen.outcome Build.finish b).1.isOk = true ∧ (Gen.outcome Build.finish b).2.context
        = b.context.redeclare b.function { b.decl with body := some b.items.toList }) := by
  rw [Build.outcome_finish]
  split
  · exact .inl ⟨rfl, rfl⟩
  · exact .inr ⟨rfl, rfl⟩

end BodyBuilder

def ArgumentPlace.home? (frame : FrameId) : ArgumentPlace → Option Position
  | .register _ => none
  | .stack offset => some (.stack (.inFrame frame offset))

/-- The parameters of a function whose body was opened, and the address of the caller's buffer. -/
def Declaration.formals (decl : Declaration) : List (ValueId × Ty × ArgumentPlace) :=
  decl.parameters ++ decl.returnPointer.toList.map fun v =>
    (v, .pointer decl.signature.result, .stack returnPointerOffset)

/-- The declaration of a function whose body was opened. -/
structure Declaration.Opened (decl : Declaration) : Prop where
  length : decl.params.length = decl.signature.params.length
  distinct : decl.params.Nodup
  returns : decl.returnPointer.isSome = true ↔ decl.layout.result = .memory

theorem Declaration.mem_formals_of_returnPointer (is_pointer : decl.returnPointer = some v) :
    (v, .pointer decl.signature.result, .stack returnPointerOffset) ∈ decl.formals :=
  mem_append_right _ (by simp [is_pointer])

def ModuleCall.isDefine : ModuleCall → Bool
  | .define .. => true
  | _ => false

namespace Module

section
variable {names : List String} {frame : FrameId}

theorem mem_named (member : (name, ty, place) ∈ named decl names) :
    (ty, place) ∈ decl.signature.params.zip (ofSignature decl.signature).arguments :=
  (of_mem_zip member).2

def initialValues (decl : Declaration) (frame : FrameId) (names : List String) : List Value :=
  (named decl names).map (parameter frame) ++ (returnBuffer frame decl.signature).toList

theorem including_returnBuffer (values : ValueStore) :
    (values.addAll ((named decl names).map (parameter frame))).including
    (returnBuffer frame decl.signature)
      = values.addAll (initialValues decl frame names) := by
  cases h : returnBuffer frame decl.signature <;>
    simp [initialValues, h, ValueStore.including, ValueStore.addAll]

theorem of_initial (member : value ∈ initialValues decl frame names) :
    value.position = value.home? ∧ value.references = 0
      ∧ ∃ named, value.kind = .named named ∧ named.storage = .auto := by
  rcases mem_append.mp member with param | buffer
  · obtain ⟨⟨name, ty, place⟩, _, rfl⟩ := mem_map.mp param
    cases place <;> exact ⟨rfl, rfl, _, rfl, rfl⟩
  · simp only [returnBuffer, Option.mem_toList] at buffer
    split at buffer <;> cases buffer
    exact ⟨rfl, rfl, _, rfl, rfl⟩

theorem home_of_initial (member : value ∈ initialValues decl frame names)
    (is_home : value.home? = some home) :
    ∃ offset, home = .stack (.inFrame frame offset) ∧ offset < decl.layout.argumentsEnd := by
  rcases mem_append.mp member with param | buffer
  · obtain ⟨⟨name, ty, place⟩, passed, rfl⟩ := mem_map.mp param
    cases place with
    | register r => cases is_home
    | stack offset =>
      cases is_home
      obtain ⟨_, inside, _⟩ := stack_argument (mem_named passed)
      have := span_pos ty
      exact ⟨offset, rfl, Nat.lt_of_lt_of_le (by omega) inside⟩
  · simp only [returnBuffer, Option.mem_toList] at buffer
    split at buffer
    · next memory =>
      cases buffer
      cases is_home
      refine ⟨_, rfl, Nat.lt_of_lt_of_le ?_ (headerSize_le decl.signature)⟩
      have header : (ofSignature decl.signature).headerSize
          = headerSizeFor (ofSignature decl.signature).result := rfl
      rw [header, memory]
      decide
    · cases buffer

section
variable (length : names.length = decl.signature.params.length)
include length

theorem homes_of_initial : (initialValues decl frame names).Pairwise fun a b =>
      ∀ {home}, a.home? = some home → b.home? ≠ some home := by
  refine pairwise_append.mpr ⟨?_, ?_, ?_⟩
  · rw [pairwise_map]
    have args : (decl.signature.params.zip decl.layout.arguments).length ≤ names.length := by
      simp [length]
    have apart := arguments_apart decl.signature
    rw [← Declaration.layout, ← map_snd_zip args, pairwise_map] at apart
    refine apart.imp fun {a b} apart home is_home is_home' => ?_
    obtain ⟨_, ty, place⟩ := a
    obtain ⟨_, ty', place'⟩ := b
    cases place with
    | register r => cases is_home
    | stack offset =>
      cases place' with
      | register r => cases is_home'
      | stack offset' =>
        cases is_home
        cases is_home'
        have after : offset + Convention.span ty ≤ offset := apart
        have := span_pos ty
        omega
  · cases returnBuffer frame decl.signature <;> simp
  · intro a param b buffer home is_home is_home'
    obtain ⟨⟨name, ty, place⟩, member, rfl⟩ := mem_map.mp param
    simp only [returnBuffer, Option.mem_toList] at buffer
    split at buffer
    · next memory =>
      cases buffer
      cases is_home'
      cases place with
      | register r => cases is_home
      | stack offset =>
        cases is_home
        obtain ⟨beyond, _⟩ := stack_argument (mem_named member)
        have header : (ofSignature decl.signature).headerSize
            = headerSizeFor (ofSignature decl.signature).result := rfl
        rw [header, memory] at beyond
        simp [headerSizeFor, returnPointerOffset, wordSize] at beyond
    · cases buffer

theorem length_named : (named decl names).length = decl.signature.params.length := by
  have args : decl.layout.arguments.length = decl.signature.params.length :=
    length_arguments _
  simp [named, length, args]

theorem get?_param
    (member : (v, ty, place) ∈ (openedDeclaration decl frame values.size).parameters) :
    ∃ name, (name, ty, place) ∈ named decl names
      ∧ (values.addAll (initialValues decl frame names)).get? v
      = some (parameter frame (name, ty, place)) := by
  obtain ⟨i, at_i⟩ := mem_iff_getElem?.mp member
  rw [getElem?_zip_eq_some, getElem?_zip_eq_some] at at_i
  obtain ⟨is_v, is_ty, is_place⟩ := at_i
  have small : i < decl.signature.params.length := (List.getElem?_eq_some_iff.mp is_ty).1
  have small' : i < names.length := length ▸ small
  simp only [openedDeclaration, getElem?_map, getElem?_range' small, map_some,
    Option.some.injEq] at is_v
  subst is_v
  have is_param : (named decl names)[i]? = some (names[i], ty, place) := by
    rw [named, getElem?_zip_eq_some, getElem?_zip_eq_some]
    exact ⟨List.getElem?_eq_getElem small', is_ty, is_place⟩
  refine ⟨names[i], mem_of_getElem? is_param, ?_⟩
  have counted : i < ((named decl names).map (parameter frame)).length := by
    rw [length_map, length_named length]
    exact small
  rw [get?_addAll, if_neg (by simp), initialValues,
    getElem?_append_left (by simpa using counted), getElem?_map]
  simp [is_param]

theorem get?_returnPointer
    (is_pointer : (openedDeclaration decl frame values.size).returnPointer = some v) :
    ∃ buffer, returnBuffer frame decl.signature = some buffer
      ∧ (values.addAll (initialValues decl frame names)).get? v = some buffer := by
  obtain ⟨buffer, is_buffer, rfl⟩ := map_eq_some_iff.mp is_pointer
  refine ⟨buffer, is_buffer, ?_⟩
  have count : ((named decl names).map (parameter frame)).length
      = decl.signature.params.length := by
    rw [length_map, length_named length]
  rw [ValueStore.get?_addAll, if_neg (by simp), initialValues, getElem?_append_right
    (by simp [count])]
  simp [is_buffer, length_named length]

/-- What is in the store once the body is open. -/
theorem get?_formal (member : (v, ty, place) ∈ (openedDeclaration decl frame values.size).formals) :
    ∃ value, (values.addAll (initialValues decl frame names)).get? v = some value ∧ value.ty = ty
      ∧ value.isNamed = true ∧ value.home? = place.home? frame := by
  obtain param | ptr := mem_append.mp member
  · obtain ⟨name, _, found⟩ := get?_param length param
    refine ⟨_, found, ?_⟩
    cases place <;> exact ⟨rfl, rfl, rfl⟩
  · obtain ⟨_, is_pointer, same⟩ := mem_map.mp ptr
    cases same
    obtain ⟨buffer, is_buffer, found⟩ := get?_returnPointer length (Option.mem_toList.mp is_pointer)
    refine ⟨buffer, found, ?_⟩
    simp only [returnBuffer] at is_buffer
    split at is_buffer <;> cases is_buffer
    exact ⟨rfl, rfl, rfl⟩

theorem formal_of_initial {i : Nat}
    (at_i : (initialValues decl frame names)[i]? = some value) (size : Nat) :
    ∃ ty place, (⟨size + i⟩, ty, place) ∈ (openedDeclaration decl frame size).formals := by
  have count : ((named decl names).map (parameter frame)).length
      = decl.signature.params.length := by
    rw [length_map, length_named length]
  have args : decl.layout.arguments.length = decl.signature.params.length := length_arguments _
  by_cases small : i < decl.signature.params.length
  · refine ⟨decl.signature.params[i], decl.layout.arguments[i],
      mem_append_left _ (mem_iff_getElem?.mpr ⟨i, ?_⟩)⟩
    rw [getElem?_zip_eq_some, getElem?_zip_eq_some]
    refine ⟨?_, List.getElem?_eq_getElem small, List.getElem?_eq_getElem (args ▸ small)⟩
    simp [openedDeclaration, getElem?_range' small]
  · rw [initialValues, getElem?_append_right (by omega), count] at at_i
    cases is_buffer : returnBuffer frame decl.signature with
    | none => simp [is_buffer] at at_i
    | some buffer =>
      rw [is_buffer, toList_some, getElem?_singleton] at at_i
      obtain rfl : i = decl.signature.params.length := by
        split at at_i
        · omega
        · cases at_i
      refine ⟨_, _, mem_append_right _ (mem_map.mpr ⟨_, ?_, rfl⟩)⟩
      simp [openedDeclaration, is_buffer]

end

end

theorem opened_openedDeclaration (decl : Declaration) (frame : FrameId) (size : Nat) :
    (openedDeclaration decl frame size).Opened := by
  refine ⟨by simp [openedDeclaration], ?_, ?_⟩
  · exact List.Nodup.map (fun _ _ same => ValueId.mk.inj same) nodup_range'
  · simp only [openedDeclaration, isSome_map, returnBuffer, Declaration.layout]
    cases (ofSignature decl.signature).result <;> simp

/-- The declaration can be added to the module, which has the given frames then. -/
structure Declares (m : Module) (decl : Declaration) (frames : Frames) : Prop where
  bodiless : decl.body = none
  bare : decl.params = [] ∧ decl.returnPointer = none
  hosted : decl.isExternal = true →
    decl.frame = none ∧ externalProblem? decl.name decl.signature = none
  kept : ∀ {frame size}, m.frames.size? frame = some size → frames.size? frame = some size
  fresh : ∀ {frame}, decl.frame = some frame → m.frames.size? frame = none
    ∧ frames.size? frame = some decl.layout.argumentsEnd
  addressable : decl.layout.argumentsEnd < 2 ^ 32
  counted : frames.sizes.size = m.frames.sizes.size + if decl.frame.isSome then 1 else 0
  labels : decl.start = ⟨m.nextLabel⟩ ∧ decl.epilogue = ⟨m.nextLabel + 1⟩

theorem Declares.operations_push (declares : m.Declares decl frames) :
    { m with frames, nextLabel, functions := m.functions.push decl }.operations = m.operations := by
  simp [operations, Declaration.operations, declares.bodiless]

/-- What a call does that opens no body. -/
inductive Step (m : Module) : Module → Prop
  | rejected : m.Step m
  | declare {decl : Declaration} {frames : Frames} (declares : m.Declares decl frames) :
      m.Step { m with frames, nextLabel := m.nextLabel + 1 + 1, functions := m.functions.push decl }
  | houses {m' : Module} (houses : m.Houses m') : m.Step m'
  | entry {function : FunctionId} {decl : Declaration} (known : m.function? function = some decl)
      (internal : decl.isExternal = false) (bare : decl.signature.params = []) :
      m.Step { m with entry := some function }

theorem externalProblem?_of_declarationProblem? {sig : Signature} {handle : Word}
    (none_found : m.declarationProblem? name sig (.external handle) = none) :
    externalProblem? name sig = none := by
  unfold declarationProblem? at none_found
  split at none_found
  · cases none_found
  split at none_found
  · cases none_found
  · exact ((ite_eq_iff.mp none_found).resolve_left (by simp)).2

theorem ofSignature?_eq_some {sig : Signature} {layout : CallLayout}
    (laid_out : ofSignature? sig = some layout) :
    layout = ofSignature sig ∧ (ofSignature sig).argumentsEnd < 2 ^ 32 := by
  obtain ⟨fits, same⟩ := Option.ite_none_right_eq_some.mp laid_out
  exact ⟨(Option.some.inj same).symm, of_decide_eq_true (Bool.and_eq_true_iff.mp fits).2⟩

theorem step_perform (m : Module) {call : ModuleCall} (plain : call.isDefine = false) :
    m.Step (m.perform call) := by
  cases call with
  | declare name sig linkage line =>
    rw [perform, outcome_declare]
    split
    · exact .rejected
    · exact .rejected
    · next layout accepted laid_out =>
      obtain ⟨rfl, addressable⟩ := ofSignature?_eq_some laid_out
      cases linkage with
      | external handle =>
        refine .declare
          ⟨rfl, ⟨rfl, rfl⟩, fun _ => ⟨rfl, ?_⟩, id, by rintro _ ⟨⟩, addressable, rfl, rfl, rfl⟩
        exact externalProblem?_of_declarationProblem? accepted
      | internal =>
        refine .declare
          ⟨rfl, ⟨rfl, rfl⟩, by rintro ⟨⟩, fun {frame size} known => ?_, ?_, addressable,
          by simp, rfl, rfl⟩
        · have bound : frame.index < m.frames.sizes.size := (Array.getElem?_eq_some_iff.mp known).1
          simp only [Frames.size?, Array.getElem?_push_lt bound]
          rwa [← Array.getElem?_eq_getElem bound]
        · rintro _ ⟨⟩
          refine ⟨by simp [Frames.size?], ?_⟩
          have whole := alignUp_of_dvd (by decide) (argumentsEnd_aligned sig)
          simpa [Frames.size?, Declaration.layout, whole] using addressable
  | declareStatic name ty line =>
    rw [perform, declareStatic, Gen.outcome_get]
    obtain same | houses := m.houses_addStatic name ty (m.loc line)
    · rw [same]
      exact .rejected
    · exact .houses houses
  | setEntry function line =>
    rw [perform, outcome_setEntry]
    cases known : m.function? function with
    | none => exact .rejected
    | some decl =>
      dsimp only
      split
      · exact .rejected
      · next internal =>
        split
        · exact .rejected
        · next bare => exact .entry known (by simpa using internal) (by simpa using bare)
  | define => cases plain

end Module

end RegisterBackend
