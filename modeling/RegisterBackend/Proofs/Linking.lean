import RegisterBackend.Proofs.Laying

/-!
What a finished module names. Labels are all distinct, since each is taken from one counter that
only grows, so every name in the code is placed once and the module can be made into an image.
-/
namespace RegisterBackend

open Gen List Assembler

variable {c : Context} {m : Module} {before instrs : List Instr} {decl : Declaration}
  {f function : FunctionId} {i : Instr} {label : LabelId}

def Declaration.ends (decl : Declaration) : List LabelId := [decl.start, decl.epilogue]

theorem Declaration.mem_labels :
    label ∈ decl.labels ↔ label ∈ decl.ends ∨ label ∈ Operation.labels decl.operations := by
  simp only [labels, ends, mem_append, mem_cons, not_mem_nil, or_false]
  tauto

def BodyCall.issued (b : BodyBuilder) : BodyCall → List LabelId
  | .newLabel => (outcome Build.newLabel b).1.toOption.toList
  | _ => []

def BodyBuilder.issued (b : BodyBuilder) : List BodyCall → List LabelId
  | [] => []
  | call :: rest => call.issued b ++ (outcome call.request b).2.issued rest

namespace Module

def ends (m : Module) : List LabelId := m.functions.toList.flatMap Declaration.ends

def issued (m : Module) : List ModuleCall → List LabelId
  | [] => []
  | call :: rest =>
    (match call with
      | .define function names line body _ =>
        match outcome (Module.define function names line) m with
        | (.ok b, _) => b.issued body
        | (.error _, _) => []
      | _ => []) ++ (m.perform call).issued rest

/-- The labels of functions and those asked for are distinct, and none is still to come. -/
structure Labelled (m : Module) (issued : List LabelId) : Prop where
  bounded : ∀ label ∈ m.ends ++ issued, label.index < m.nextLabel
  distinct : (m.ends ++ issued).Nodup

namespace Labelled
variable {m' : Module} {issued : List LabelId}

theorem start (options : Options) (file : String) : (Module.start options file).Labelled [] :=
  ⟨nofun, .nil⟩

section
variable (labelled : m.Labelled issued)
include labelled

theorem grow (ends : m'.ends = m.ends) (grows : m.nextLabel ≤ m'.nextLabel) :
    m'.Labelled issued where
  bounded label member := Nat.lt_of_lt_of_le (labelled.bounded label (ends ▸ member)) grows
  distinct := ends ▸ labelled.distinct

theorem fresh (new : m.nextLabel ≤ label.index) : label ∉ m.ends ++ issued := by
  intro old
  have := labelled.bounded label old
  omega

theorem ask : Labelled { m with nextLabel := m.nextLabel + 1 } (issued ++ [⟨m.nextLabel⟩]) where
  bounded label member := by
    change label ∈ m.ends ++ (issued ++ [⟨m.nextLabel⟩]) at member
    change label.index < m.nextLabel + 1
    rw [← append_assoc, mem_append, mem_singleton] at member
    obtain old | rfl := member
    · exact Nat.lt_succ_of_lt (labelled.bounded label old)
    · exact Nat.lt_succ_self _
  distinct := by
    rw [← append_assoc, nodup_append_comm, singleton_append, nodup_cons]
    exact ⟨labelled.fresh le_rfl, labelled.distinct⟩

theorem pushDeclaration {frames : Frames} (start : decl.start = ⟨m.nextLabel⟩)
    (epilogue : decl.epilogue = ⟨m.nextLabel + 1⟩) :
    { m with frames, nextLabel := m.nextLabel + 1 + 1, functions := m.functions.push decl }.Labelled
    issued := by
  set m' := { m with frames, nextLabel := m.nextLabel + 1 + 1, functions := m.functions.push decl }
  have perm : (m'.ends ++ issued).Perm
      (⟨m.nextLabel⟩ :: ⟨m.nextLabel + 1⟩ :: (m.ends ++ issued)) := by
    have added : m'.ends = m.ends ++ [⟨m.nextLabel⟩, ⟨m.nextLabel + 1⟩] := by
      simp [m', Module.ends, Declaration.ends, start, epilogue]
    rw [added]
    exact perm_append_comm.append_right issued
  constructor
  · intro label member
    change label.index < m.nextLabel + 1 + 1
    rw [perm.mem_iff, mem_cons, mem_cons] at member
    obtain rfl | rfl | old := member
    · simp
    · simp
    · have := labelled.bounded label old
      omega
  · rw [perm.nodup_iff, nodup_cons, nodup_cons, mem_cons, not_or]
    exact ⟨⟨by simp, labelled.fresh le_rfl⟩, labelled.fresh (Nat.le_succ _), labelled.distinct⟩

end

end Labelled

theorem ends_redeclare {decl' : Declaration} (known : m.function? function = some decl)
    (same : decl'.ends = decl.ends) : (m.redeclare function decl').ends = m.ends := by
  obtain ⟨bound, is_decl⟩ := Array.getElem?_eq_some_iff.mp known
  have small :
      function.index < (m.functions.toList.map Declaration.ends).length := by simpa using bound
  have there : (m.functions.toList.map Declaration.ends)[function.index] = decl'.ends := by
    simp [is_decl, same]
  rw [ends, ends, redeclare, Array.toList_setIfInBounds, flatMap_def, flatMap_def, map_set,
    ← there, set_getElem_self]

end Module

namespace BodyBuilder
variable {b b' : BodyBuilder} {issued : List LabelId}

theorem Edit.kept (edit : b.Edit b') :
    b'.context.functions = b.context.functions ∧ b.context.nextLabel ≤ b'.context.nextLabel := by
  cases edit with
  | note loc diagnostics grows => exact ⟨rfl, grows⟩
  | houses houses => cases houses <;> exact ⟨rfl, le_rfl⟩
  | _ => exact ⟨rfl, le_rfl⟩

theorem Edits.kept (edits : b.Edits b') :
    b'.context.functions = b.context.functions ∧ b.context.nextLabel ≤ b'.context.nextLabel := by
  induction edits with
  | refl => exact ⟨rfl, le_rfl⟩
  | tail _ edit ih => exact ⟨edit.kept.1.trans ih.1, ih.2.trans edit.kept.2⟩

theorem labelled_step (labelled : b.context.Labelled issued) (call : BodyCall) :
    (outcome call.request b).2.context.Labelled (issued ++ call.issued b) := by
  by_cases asks : call = .newLabel
  · subst asks
    exact labelled.ask
  · obtain ⟨functions, grows⟩ := (call.edits b).kept
    have none : call.issued b = [] := by
      cases call with
      | newLabel => exact absurd rfl asks
      | _ => rfl
    rw [none, append_nil]
    exact labelled.grow (by rw [Module.ends, functions, Module.ends]) grows

theorem labelled_perform (labelled : b.context.Labelled issued) (calls : List BodyCall) :
    (b.perform calls).context.Labelled (issued ++ b.issued calls) := by
  induction calls generalizing b issued with
  | nil => simpa [perform, BodyBuilder.issued] using labelled
  | cons call rest ih =>
    rw [BodyBuilder.issued, ← append_assoc]
    exact ih (labelled_step labelled call)

end BodyBuilder

namespace Module
variable {issued : List LabelId}

theorem Labelled.step {m' : Module} (labelled : m.Labelled issued) (step : m.Step m') :
    m'.Labelled issued := by
  cases step with
  | declare declares => exact labelled.pushDeclaration declares.labels.1 declares.labels.2
  | houses houses => cases houses <;> exact labelled.grow rfl le_rfl
  | _ => exact labelled.grow rfl le_rfl

theorem Labelled.perform (vetted : m.Vetted) (labelled : m.Labelled issued) (call : ModuleCall) :
    (m.perform call).Labelled (issued ++ m.issued [call]) := by
  cases call with
  | define function names line body completed =>
    simp only [Module.perform, Module.issued, append_nil]
    rcases is_open : outcome (Module.define function names line) m with ⟨_ | b, m'⟩
    · rw [(define_error is_open).1]
      simpa using labelled
    · have opened : b.context.Labelled issued := by
        obtain ⟨decl, frame, known, _, _, _, rfl⟩ := define_ok is_open
        exact labelled.grow (ends_redeclare known rfl) le_rfl
      have edited := BodyBuilder.labelled_perform opened body
      cases completed with
      | false => exact edited
      | true =>
        obtain ⟨_, same⟩ | ⟨_, closed⟩ := (b.perform body).context_finish
        · simp only [↓reduceIte, same]
          exact edited
        · simp only [↓reduceIte, closed]
          have current := ((vetted.define is_open).edits (b.edits_perform body)).current
          exact edited.grow (ends_redeclare current rfl) le_rfl
  | _ => simpa only [Module.issued, append_nil] using labelled.step (m.step_perform rfl)

theorem labelled_build (options : Options) (file : String) (calls : List ModuleCall) :
    (build options file calls).Labelled ((Module.start options file).issued calls) := by
  have performed {m : Module} {issued : List LabelId} (vetted : m.Vetted)
      (labelled : m.Labelled issued) :
      (calls.foldl Module.perform m).Labelled (issued ++ m.issued calls) := by
    induction calls generalizing m issued with
    | nil => simpa [Module.issued] using labelled
    | cons call rest ih =>
      have next := ih (vetted.perform call) (labelled.perform vetted call)
      have parts : m.issued (call :: rest) = m.issued [call] ++ (m.perform call).issued rest := by
        simp [Module.issued]
      rwa [parts, ← append_assoc]
  exact performed (.start options file) (.start options file)

def Places (m : Module) (f : FunctionId) (label : LabelId) : Prop :=
  ∃ decl, m.function? f = some decl ∧ .label label ∈ decl.operations

theorem places_of_mem (known : m.function? f = some decl)
    (member : label ∈ Operation.labels decl.operations) : m.Places f label := by
  obtain ⟨operation, listed, places⟩ := mem_filterMap.mp member
  have is_label : operation = .label label := by
    cases operation <;> simp_all [Operation.places?]
  exact ⟨decl, known, is_label ▸ listed⟩

section
variable (vetted : m.Vetted) (labelled : m.Labelled issued)
  (own : ∀ {f label}, m.Places f label → label ∈ issued)
include labelled own

theorem not_mem_ends_of_places (places : m.Places f label) : label ∉ m.ends :=
  fun listed => (nodup_append.mp labelled.distinct).2.2 _ listed _ (own places) rfl

include vetted in
theorem nodup_labels_of_function (known : m.function? f = some decl) : decl.labels.Nodup := by
  have listed : decl ∈ m.functions.toList := by simpa using Array.mem_of_getElem? known
  have distinct : decl.ends.Nodup :=
    (nodup_flatMap.mp (nodup_append.mp labelled.distinct).1).1 decl listed
  have inside {label : LabelId} (member : label ∈ Operation.labels decl.operations) :
      label ∉ decl.ends :=
    fun at_end => not_mem_ends_of_places labelled own (places_of_mem known member)
      (mem_flatMap.mpr ⟨decl, listed, at_end⟩)
  have unique := (vetted.bodies known).unique
  have start : decl.start ∉ Operation.labels decl.operations := fun member =>
    inside member mem_cons_self
  have epilogue : decl.epilogue ∉ Operation.labels decl.operations := fun member =>
    inside member (mem_cons_of_mem _ mem_cons_self)
  rw [Declaration.ends, nodup_cons] at distinct
  rw [Declaration.labels, nodup_append_comm, singleton_append, nodup_cons, nodup_cons]
  refine ⟨?_, start, unique⟩
  rw [mem_cons, not_or]
  exact ⟨fun same => distinct.1 (same ▸ mem_cons_self), epilogue⟩

include vetted in
theorem nodup_labels (apart : ∀ {f g label}, m.Places f label → m.Places g label → f = g) :
    m.labels.Nodup := by
  refine nodup_flatMap.mpr ⟨fun decl member => ?_, ?_⟩
  · obtain ⟨f, known⟩ := exists_function (mem_of_mem_filter member)
    exact nodup_labels_of_function vetted labelled own known
  · refine List.Pairwise.filter _ (pairwise_iff_getElem.mpr fun i j small small' less => ?_)
    have known : m.function? ⟨i⟩ = some m.functions.toList[i] := by simp [function?]
    have known' : m.function? ⟨j⟩ = some m.functions.toList[j] := by simp [function?]
    have ends := (nodup_flatMap.mp (nodup_append.mp labelled.distinct).1).2
    have disjoint := pairwise_iff_getElem.mp ends i j small small' less
    intro label member member'
    have outside {f : FunctionId} {g : Nat} {decl : Declaration} (places : m.Places f label)
        (listed : m.functions.toList[g]? = some decl) (at_end : label ∈ decl.ends) : False :=
      not_mem_ends_of_places labelled own places
        (mem_flatMap.mpr ⟨decl, List.mem_of_getElem? listed, at_end⟩)
    obtain at_end | inside := Declaration.mem_labels.mp member
    · obtain at_end' | inside' := Declaration.mem_labels.mp member'
      · exact disjoint at_end at_end'
      · exact outside (places_of_mem known' inside') (getElem?_eq_getElem small) at_end
    · obtain at_end' | inside' := Declaration.mem_labels.mp member'
      · exact outside (places_of_mem known inside) (getElem?_eq_getElem small') at_end'
      · have same := apart (places_of_mem known inside) (places_of_mem known' inside')
        simp only [FunctionId.mk.injEq] at same
        omega

end

end Module

section
variable {S : Scope} {program : List Instr}

theorem mem_blobs_of_known {id : ConstantId} (known : id.Known c) :
    id ∈ (withBlobs instrs c.constants.toList).filterMap Instr.blob? := by
  have bound : id.index < c.constants.blobs.size := by
    by_contra beyond
    have none : c.constants.get? id = none := by
      rw [ConstantPool.get?, Array.getElem?_eq_none_iff]
      omega
    simp [ConstantId.Known, Context.extent, none] at known
  refine mem_filterMap.mpr ⟨.data id c.constants.blobs[id.index], ?_, rfl⟩
  refine mem_append_right _ (mem_map.mpr ⟨(id, c.constants.blobs[id.index]), ?_, rfl⟩)
  rw [ConstantPool.toList, mem_mapIdx]
  exact ⟨id.index, by simpa using bound, by simp⟩

theorem StackSlot.Known.has {slot : StackSlot} (known : slot.Known c) (statics : Nat) :
    CodeField.Known ⟨c.frames.sizes, statics⟩ program (.slot slot) := by
  obtain ⟨base, offset⟩ := slot
  cases base with
  | frame frame => exact known frame rfl
  | outgoing => trivial

variable (targets : ∀ {label}, S.targets label → label ∈ program.filterMap Instr.label?)
  (starts : ∀ {label}, S.starts label → label ∈ program.filterMap Instr.label?)
  (blobs : ∀ {id}, ConstantId.Known c id → id ∈ program.filterMap Instr.blob?)

section
include starts blobs

theorem Imm.Known.known {imm : Imm} (known : imm.Known S c) (statics : Nat) :
    CodeField.Known ⟨c.frames.sizes, statics⟩ program (.immediate imm) := by
  cases imm with
  | value bits => trivial
  | constantAddress id => exact blobs known
  | labelAddress label => exact starts known

include targets

theorem Instr.Fine.known (fine : i.Fine S c) (statics : Nat) :
    ∀ field ∈ i.fields, field.Known ⟨c.frames.sizes, statics⟩ program := by
  have sized {dst : Register} {size : UInt8} :
      ∀ field ∈ if dst.isFloat then [CodeField.byte size] else [],
        field.Known ⟨c.frames.sizes, statics⟩ program := by
    split <;> simp [CodeField.Known]
  cases i with
  | movImm dst imm | aluImm op dst imm =>
    simpa [fields, CodeField.Known] using fine.2.known starts blobs statics
  | loadStack dst slot size =>
    rw [fields, forall_mem_append]
    exact ⟨by simpa [CodeField.Known] using fine.2.has statics, sized⟩
  | storeStack src slot size => simpa [fields, CodeField.Known] using fine.2.has statics
  | loadPtr dst ptr size =>
    rw [fields, forall_mem_append]
    exact ⟨by simp [CodeField.Known], sized⟩
  | leaStack dst slot => simpa [fields, CodeField.Known] using fine.2.has statics
  | copyStack dst src size =>
    simpa [fields, CodeField.Known] using And.intro (fine.1.has statics) (fine.2.has statics)
  | jump target => simpa [fields, CodeField.Known] using targets fine
  | jumpIf r target cond => simpa [fields, CodeField.Known] using targets fine.2
  | call target => simpa [fields, CodeField.Known] using starts fine
  | stackAdjust amount => exact fine.elim
  | _ => simp [fields, CodeField.Known]

end

end

namespace Module
variable {ranges : List (Option (Nat × Nat))}

section
variable (vetted : m.Vetted) (run : Runs (lowerModule m.functions m.entry) m.context ranges c)
include vetted run

theorem mem_program_of_labels (member : label ∈ m.labels) :
    label ∈ (withBlobs c.code.toList c.constants.toList).filterMap Instr.label? := by
  rw [withBlobs, filterMap_append, labels_lowerModule vetted run]
  exact mem_append_left _ member

theorem known_of_standing (standing : m.untraced.Standing c before i) :
    (∀ frame, i.markedFrame? = some frame → frame.index < c.frames.sizes.size)
      ∧ ∀ field ∈ i.fields, field.Known ⟨c.frames.sizes, c.statics.size⟩
        (withBlobs c.code.toList c.constants.toList) := by
  have label_known {decl : Declaration} (codes : m.Codes decl) {label : LabelId}
      (member : label ∈ decl.labels) :=
    mem_program_of_labels vetted run (mem_labels.mpr ⟨decl, codes, member⟩)
  cases standing with
  | statics => exact ⟨by rintro _ ⟨⟩, by simp [Instr.fields, CodeField.Known]⟩
  | entry codes bare =>
    refine ⟨by rintro _ ⟨⟩, ?_⟩
    simpa [Instr.fields, CodeField.Known] using label_known codes mem_cons_self
  | halt | ret codes => exact ⟨by rintro _ ⟨⟩, by rintro _ ⟨⟩⟩
  | @inner decl _ _ codes stands =>
    have fine_known (fine : i.Fine (m.untraced.scope decl) c) :
        ∀ field ∈ i.fields, field.Known ⟨c.frames.sizes, c.statics.size⟩
          (withBlobs c.code.toList c.constants.toList) := by
      refine fine.known (fun {label} target => ?_)
        (fun {label} start => ?_) mem_blobs_of_known c.statics.size
      · refine label_known codes (Declaration.mem_labels.mpr (target.imp_left ?_))
        rintro rfl
        exact mem_cons_of_mem _ mem_cons_self
      · obtain ⟨callee, codes', rfl⟩ := start
        exact label_known codes' mem_cons_self
    cases i with
    | label id => exact ⟨by rintro _ ⟨⟩, by rintro _ ⟨⟩⟩
    | stackAdjust amount =>
      refine ⟨by rintro _ ⟨⟩, ?_⟩
      cases amount with
      | enter frame | leave frame =>
        simpa [Instr.fields, CodeField.Known, FrameLayout.Has] using stands frame rfl
      | statics => simp [Instr.fields, CodeField.Known]
    | location name pos frame => exact ⟨stands.1, fine_known stands.1⟩
    | _ => exact ⟨by rintro _ ⟨⟩, fine_known stands.1⟩

theorem closed_lowerModule (unique : m.labels.Nodup) :
    Closed ⟨c.frames.sizes, c.statics.size⟩ (withBlobs c.code.toList c.constants.toList) := by
  have known {i : Instr} (member : i ∈ withBlobs c.code.toList c.constants.toList) :
      (∀ frame, i.markedFrame? = some frame → frame.index < c.frames.sizes.size)
        ∧ ∀ field ∈ i.fields, field.Known ⟨c.frames.sizes, c.statics.size⟩
          (withBlobs c.code.toList c.constants.toList) := by
    obtain coded | is_blob := mem_append.mp member
    · obtain ⟨before, after, split⟩ := append_of_mem coded
      exact known_of_standing vetted run
        (Tracing.standing_of_visits vetted (visits_lowerModule run) split)
    · obtain ⟨⟨id, bytes⟩, _, rfl⟩ := mem_map.mp is_blob
      exact ⟨by rintro _ ⟨⟩, by rintro _ ⟨⟩⟩
  refine ⟨?_, fun i member => (known member).1, fun i member => (known member).2⟩
  rw [withBlobs, filterMap_append, labels_lowerModule vetted run, filterMap_map]
  simpa [Function.comp_def, Instr.label?] using unique

end

/-- A label that no body places is in the code once at most, as the start or the end of a function.
-/
theorem count_finished {options : Options} {file : String} {calls : List ModuleCall}
    {program : Program} (finished : (build options file calls).finish = .ok program)
    (unplaced : ∀ f, ¬(build options file calls).Places f label) :
    (program.instrs.filterMap Instr.label?).count label ≤ 1 := by
  obtain ⟨ranges, c, run, instrs, -⟩ := lowered_of_finish finished
  rw [instrs, labels_lowerModule (vetted_build options file calls) run]
  set m := build options file calls
  have ends {decl : Declaration} (listed : decl ∈ m.functions.toList) :
      decl.labels.count label = decl.ends.count label := by
    obtain ⟨f, known⟩ := exists_function listed
    have outside : label ∉ Operation.labels decl.operations :=
      fun member => unplaced f (places_of_mem known member)
    simp [Declaration.labels, Declaration.ends, count_cons, count_eq_zero_of_not_mem outside]
  calc m.labels.count label
      = ((m.functions.toList.filter fun decl => !decl.isExternal).flatMap
        Declaration.ends).count label := by
        rw [labels, count_flatMap, count_flatMap]
        exact congrArg sum (map_congr_left fun decl member => ends (mem_of_mem_filter member))
    _ ≤ m.ends.count label := (filter_sublist.flatMap _).count_le _
    _ ≤ 1 := nodup_iff_count_le_one.mp
        (nodup_append.mp (labelled_build options file calls).distinct).1 label

/-- A finished module can be made into an image, with and without leaving out what does nothing, if
its bodies place only labels that they asked for and no label is placed in two bodies. Then every
label that is named is placed once, and the frames and blobs that are named are there. -/
theorem finished_assembles {options : Options} {file : String} {calls : List ModuleCall}
    {program : Program} (finished : (build options file calls).finish = .ok program)
    (own : ∀ {f label}, (build options file calls).Places f label →
      label ∈ (start options file).issued calls)
    (apart : ∀ {f g label}, (build options file calls).Places f label →
      (build options file calls).Places g label → f = g) :
    Closed program.layout (Assembler.withBlobs program.instrs program.blobs)
      ∧ ∀ optimize, ∃ image, { program with optimize }.assemble = .ok image := by
  have vetted := vetted_build options file calls
  obtain ⟨ranges, c, run, instrs, layout, blobs, -⟩ := lowered_of_finish finished
  have closed := closed_lowerModule vetted run
    (nodup_labels vetted (labelled_build options file calls) own apart)
  rw [instrs, layout, blobs]
  refine ⟨closed, fun optimize => ?_⟩
  rw [Program.assemble, Assembler.assembles_iff]
  exact closed

def countdownCalls : List ModuleCall :=
  [.declare "pred" ⟨[.i64], .i64⟩ .internal 1, .declare "main" ⟨[], .i64⟩ .internal 2,
    .define ⟨0⟩ ["x"] 3 [.constant .i64 1, .binary .sub ⟨0⟩ ⟨1⟩, .ret (some ⟨2⟩)] true,
    .define ⟨1⟩ [] 4
      [.newVariable .i64 "n", .constant .i64 5, .assign ⟨3⟩ ⟨4⟩, .newLabel, .placeLabel ⟨4⟩,
      .call ⟨0⟩ [⟨3⟩], .assign ⟨3⟩ ⟨5⟩, .branch ⟨3⟩ ⟨4⟩ true false, .ret (some ⟨3⟩)] true,
    .setEntry ⟨1⟩ 10]

/-- The label of the loop is the one that is asked for, and only the entry places it. -/
theorem finished_assembles_countdown : (start {} "count.c").issued countdownCalls = [⟨4⟩]
      ∧ ∃ program image, (build {} "count.c" countdownCalls).finish = .ok program
      ∧ program.assemble = .ok image := by
  have issued : (start {} "count.c").issued countdownCalls = [⟨4⟩] := by decide +kernel
  have placed : ((build {} "count.c" countdownCalls).functions.toList.map fun decl =>
      Operation.labels decl.operations) = [[], [⟨4⟩]] := by decide +kernel
  have only {f label} (places : (build {} "count.c" countdownCalls).Places f label) : f = ⟨1⟩
      ∧ label = ⟨4⟩ := by
    obtain ⟨decl, known, listed⟩ := places
    have known : (build {} "count.c" countdownCalls).functions.toList[f.index]? = some decl := by
      simpa [function?] using known
    have labels := congrArg (·[f.index]?) placed
    simp only [List.getElem?_map, known, Option.map_some] at labels
    have member : label ∈ Operation.labels decl.operations :=
      List.mem_filterMap.mpr ⟨_, listed, rfl⟩
    obtain ⟨_ | _ | f⟩ := f
    · simp_all
    · simp_all
    · simp at labels
  have finishes : (build {} "count.c" countdownCalls).finish.isOk = true := by decide +kernel
  cases finished : (build {} "count.c" countdownCalls).finish with
  | error fault =>
    rw [finished] at finishes
    cases finishes
  | ok program =>
    obtain ⟨_, assembles⟩ :=
      finished_assembles finished (fun places => by rw [issued, (only places).2]; simp)
      fun places places' => (only places).1.trans (only places').1.symm
    obtain ⟨image, assembled⟩ := assembles program.optimize
    exact ⟨issued, program, image, rfl, assembled⟩

end Module

/-- The field names a register of the machine, of the bank that the operand asks for, if it names
a register. -/
def CodeField.Suits : CodeField → OperandKind → Prop
  | .register r, .intRegister => r.IsInt
  | .register r, .floatRegister => r.IsFloat
  | .register r, .anyRegister => r.inRange = true
  | .register _, _ => False
  | _, kind => kind.isRegister = false

theorem Instr.Fine.suits {S : Scope} (fine : i.Fine S c) {op : Opcode}
    (coded : i.opcode? = some op) : Forall₂ CodeField.Suits i.fields op.operands := by
  have int_of {r : Register} : ¬ r.bank = .float ↔ r.bank = .int := by
    cases r.bank <;> simp
  cases i <;> simp only [Instr.opcode?, Option.some.injEq, reduceCtorEq] at coded <;> subst coded
  case alu op dst src =>
    rw [operands_registerOpcode]
    exact .cons fine.1 (.cons fine.2 .nil)
  case aluImm op dst imm =>
    rw [operands_immediateOpcode]
    exact .cons fine.1 (.cons rfl .nil)
  case floatAlu op dst src =>
    rw [operands_floatOpcode]
    exact .cons fine.1 (.cons fine.2 .nil)
  -- The bank of a register decides the opcode of a move, a load, a store or a push.
  all_goals try simp only [Instr.byBank]
  all_goals try split
  all_goals
    simp_all [Instr.Fine, Instr.fields, CodeField.Suits, Opcode.operands, Opcode.row,
      OperandKind.isRegister, Register.IsInt, Register.IsFloat, Register.isFloat]

namespace Module

/-- Every instruction of a finished module has registers that the machine has, from the bank that
its opcode asks for at their place. Where the opcode leaves the bank open, in the call of a host
function, the register is of the float bank just if the function, whose handle and arguments are
handed over right before, gives a float. -/
theorem finished_banked {options : Options} {file : String} {calls : List ModuleCall}
    {program : Program} (finished : (build options file calls).finish = .ok program)
    {before after : List Instr} {i : Instr} (split : program.instrs = before ++ i :: after) :
    (∀ {op}, i.opcode? = some op → List.Forall₂ CodeField.Suits i.fields op.operands)
      ∧ ∀ {dst}, i = .callExternal dst → ∃ decl handle loaded earlier,
        decl ∈ (build options file calls).functions ∧ decl.linkage = .external handle
          ∧ before = earlier ++ Instr.handsOver handle decl.signature.result.isFloat loaded
          ∧ dst.isFloat = decl.signature.result.isFloat := by
  set m := build options file calls with is_module
  obtain ⟨ranges, c, run, instrs, -⟩ := lowered_of_finish finished
  rw [instrs] at split
  have vetted : m.Vetted := vetted_build options file calls
  have standing : m.untraced.Standing c before i :=
    Tracing.standing_of_visits vetted (visits_lowerModule run) split
  cases standing with
  | statics => exact ⟨fun coded => by cases coded; exact .cons rfl .nil, by rintro _ ⟨⟩⟩
  | entry codes bare => exact ⟨fun coded => by cases coded; exact .cons rfl .nil, by rintro _ ⟨⟩⟩
  | halt => exact ⟨fun coded => by cases coded; exact .nil, by rintro _ ⟨⟩⟩
  | ret codes => exact ⟨fun coded => by cases coded; exact .nil, by rintro _ ⟨⟩⟩
  | inner codes stands =>
    cases i with
    | label id => exact ⟨by rintro _ ⟨⟩, by rintro _ ⟨⟩⟩
    | stackAdjust amount =>
      exact ⟨fun coded => by cases coded; exact .cons rfl .nil, by rintro _ ⟨⟩⟩
    | callExternal dst =>
      obtain ⟨fine, decl, handle, loaded, earlier, listed, external, -, rfl, handed, -⟩ := stands
      refine ⟨fine.suits, fun {dst'} same => ?_⟩
      cases same
      refine ⟨decl, handle, loaded, earlier, listed, external, handed, ?_⟩
      unfold Signature.hostResult
      split <;> simp_all [Register.isFloat, Register.float, Register.int]
    | _ => exact ⟨stands.1.suits, by rintro _ ⟨⟩⟩

def rootCalls : List ModuleCall :=
  [.declare "sqrt" ⟨[.float 8], .float 8⟩ (.external 7) 1,
    .declare "root" ⟨[.float 8], .float 8⟩ .internal 2,
      .define ⟨1⟩ ["x"] 3 [.call ⟨0⟩ [⟨0⟩], .ret (some ⟨1⟩)] true]

/-- The root comes back in a float register, after its handle and the sign of a float result. -/
theorem finished_banked_root :
    ∃ program before after, (build {} "root.c" rootCalls).finish = .ok program
      ∧ program.instrs = before ++ .callExternal (.float 0) :: after
      ∧ ∃ loaded earlier, before = earlier ++ Instr.handsOver 7 true loaded := by
  obtain ⟨program, finished, member⟩ : ∃ program, (build {} "root.c" rootCalls).finish = .ok program
      ∧ .callExternal (.float 0) ∈ program.instrs := exists_program (by decide +kernel)
  obtain ⟨before, after, split⟩ := List.append_of_mem member
  obtain ⟨-, names⟩ := finished_banked finished split
  obtain ⟨decl, handle, loaded, earlier, listed, external, handed, is_float⟩ := names rfl
  have hosts : ∀ decl ∈ (build {} "root.c" rootCalls).functions.toList, ∀ handle,
      decl.linkage = .external handle → handle = 7 := by
    have linkages : (build {} "root.c" rootCalls).functions.toList.map Declaration.linkage
        = [.external 7, .internal] := by decide +kernel
    intro decl listed handle external
    have := linkages ▸ List.mem_map_of_mem (f := Declaration.linkage) listed
    simp_all
  rw [hosts decl (by simpa using listed) handle external, ← is_float] at handed
  exact ⟨program, before, after, finished, split, loaded, earlier, handed⟩

end Module

end RegisterBackend
