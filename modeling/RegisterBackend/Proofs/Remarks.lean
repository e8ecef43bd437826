import RegisterBackend.Proofs.Linking

/-!
Remarks change nothing: with or without them lowering writes the same instructions besides, and
since they take no bytes the images are the same.
-/
namespace RegisterBackend

open Gen Instr List

variable {c d : Context} {body items : List BodyItem} {instrs program remarks : List Instr}
  {layout : FrameLayout}

def Instr.essentials (program : List Instr) : List Instr := program.filter fun i => !i.isRemark

theorem Instr.essentials_append (first second : List Instr) :
    essentials (first ++ second) = essentials first ++ essentials second := filter_append ..

theorem Instr.essentials_remarks (only : ∀ i ∈ remarks, i.isRemark = true) :
    essentials remarks = [] := by
  simpa [essentials, filter_eq_nil_iff] using only

/-- The contexts differ in remarks, in what the switches say about them, and in counters. -/
structure Context.Echoes (c d : Context) : Prop extends c.Shares d where
  verify : d.options.verify = c.options.verify
  code : Instr.essentials d.code.toList = Instr.essentials c.code.toList

theorem Context.Echoes.appended (echoes : c.Echoes d) {remarks' : List Instr}
    (only : ∀ i ∈ remarks, i.isRemark = true) (only' : ∀ i ∈ remarks', i.isRemark = true) :
    (c.appended remarks).Echoes (d.appended remarks') where
  toShares := ⟨echoes.values, echoes.registers, echoes.frames, echoes.statics, echoes.constants,
    echoes.currentFrame, echoes.loc⟩
  verify := echoes.verify
  code := by
    simp [Context.appended, essentials_append, essentials_remarks only,
      essentials_remarks only', echoes.code]

theorem Context.Echoes.pushed (echoes : c.Echoes d) (i : Instr) :
    (c.pushed i).Echoes (d.pushed i) where
  toShares := ⟨echoes.values, echoes.registers, echoes.frames, echoes.statics, echoes.constants,
    echoes.currentFrame, echoes.loc⟩
  verify := echoes.verify
  code := by simp [Context.pushed, essentials_append, echoes.code]

theorem outcome_comment (c : Context) (text : String) :
    ∃ remarks, (∀ i ∈ remarks, i.isRemark = true)
      ∧ outcome (comment text) c = (.ok (), c.appended remarks) := by
  change ∃ remarks,
    _ ∧ outcome (if c.options.emitComments then emit (.comment text) else pure ()) c = _
  split
  · exact ⟨[.comment text], by simp [isRemark], by simp [Context.appended]; rfl⟩
  · exact ⟨[], by simp, by simp [Context.appended]; rfl⟩

theorem outcome_markLocation {v : ValueId} {value : Value} (found : c.values.get? v = some value) :
    ∃ remarks, (∀ i ∈ remarks, i.isRemark = true)
    ∧ outcome (markLocation v) c = (.ok (), c.appended remarks) := by
  rw [outcome_markLocation_cases, found]
  dsimp only
  split
  · split
    · next named pos _ _ =>
      exact ⟨[.location named.name pos (pos.slot?.bind StackSlot.frame?)],
        by simp [isRemark], by simp [Context.appended, Context.pushed]⟩
    · exact ⟨[], by simp, by simp [Context.appended]⟩
  · exact ⟨[], by simp, by simp [Context.appended]⟩

def Correspondence.remarking : Correspondence where
  rel := Context.Echoes
  shares echoes := echoes.toShares
  change echoes k := ⟨⟨rfl, rfl, rfl, rfl, rfl, rfl, rfl⟩, echoes.verify, echoes.code⟩
  emit echoes i := echoes.pushed i
  comment {c d} echoes text := by
    obtain ⟨remarks, only, first⟩ := outcome_comment c text
    obtain ⟨remarks', only', second⟩ := outcome_comment d text
    rw [first, second]
    exact ⟨rfl, echoes.appended only only', nofun⟩
  mark {c d} echoes {v value} found := by
    obtain ⟨remarks, only, first⟩ := outcome_markLocation found
    obtain ⟨remarks', only', second⟩ := outcome_markLocation (echoes.values ▸ found)
    rw [first, second]
    exact ⟨rfl, echoes.appended only only', nofun⟩
  register echoes := { echoes with }
  spill echoes := { echoes with }
  call echoes := { echoes with }
  operation echoes _ := { echoes with }

/-- Two runs stop with one fault, or both end and leave contexts that differ in remarks. -/
inductive Abreast {α β : Type} : Except Fault α × Context → Except Fault β × Context → Prop
  | stopped {fault : Fault} {c d : Context} : Abreast (.error fault, c) (.error fault, d)
  | ended {a : α} {b : β} {c d : Context} (echoes : c.Echoes d) : Abreast (.ok a, c) (.ok b, d)

section
variable {α β γ δ : Type} {functions : Array Declaration} {decl : Declaration} {x : Gen α}

theorem Abreast.of_uniform (uniform : Correspondence.remarking.Uniform x)
    (echoes : c.Echoes d) : Abreast (outcome x c) (outcome x d) := by
  obtain ⟨result, context, _⟩ := uniform echoes
  rcases left : outcome x c with ⟨_ | _, c1⟩ <;> rcases right : outcome x d with ⟨_ | _, d1⟩ <;>
    simp only [left, right, reduceCtorEq, Except.ok.injEq, Except.error.injEq] at result context
  · subst result
    exact .stopped
  · exact .ended context

theorem Abreast.bind {y : Gen β} {f : α → Gen γ} {g : β → Gen δ}
    (first : Abreast (outcome x c) (outcome y d))
    (rest : ∀ {a b c1 d1}, c1.Echoes d1 → Abreast (outcome (f a) c1) (outcome (g b) d1)) :
    Abreast (outcome (x >>= f) c) (outcome (y >>= g) d) := by
  rw [outcome_bind, outcome_bind]
  generalize outcome x c = left at first
  generalize outcome y d = right at first
  cases first with
  | stopped => exact .stopped
  | ended echoes => exact rest echoes

theorem abreast_verified (echoes : c.Echoes d) :
    Abreast (outcome (do if (← get).options.verify then checkConsistency) c)
      (outcome (do if (← get).options.verify then checkConsistency) d) := by
  rw [outcome_checked, outcome_checked, echoes.verify, echoes.check_eq]
  split
  · cases c.check with
    | error fault => exact .stopped
    | ok _ => exact .ended echoes
  · exact .ended echoes

open Correspondence in
def abreast : Scheme where
  holds x y := ∀ {c d}, c.Echoes d → Abreast (outcome x c) (outcome y d)
  holds_pure _ _ _ _ := .ended
  holds_bind first rest _ _ echoes := .bind (first echoes) fun echoes => rest _ _ echoes
  holds_checked := abreast_verified
  holds_inconsistent _ _ _ _ := .stopped
  holds_registers {_ f} agrees rest c d echoes := by
    change Abreast (outcome (f c) c) (outcome (f d) d)
    rw [agrees echoes.registers]
    exact rest c echoes
  holds_count := .ended
  holds_addFunction _ _ _ _ _ echoes := .ended { echoes with }
  holds_inFrame frame _ _ :=
    .of_uniform (uniform_modify (fun k => { k with currentFrame := frame }) fun _ => rfl)
  holds_prologue _ _ _ _ := .of_uniform (uniform_lowerPrologue _ _)
  holds_retire := .of_uniform uniform_retireRegisters
  holds_epilogue _ _ _ _ := .of_uniform (uniform_lowerEpilogue _ _)
  holds_entry _ _ _ _ := .of_uniform (uniform_lowerEntry _ _)

theorem abreast_lowerModule {entry : Option FunctionId} (echoes : c.Echoes d) :
    Abreast (outcome (lowerModule functions entry) c) (outcome (lowerModule functions entry) d) :=
  abreast.holds_lowerModule entry
    (fun _ _ _ _ _ => .of_uniform (Correspondence.uniform_lowerUnchecked _ _ _ _)) echoes

end

theorem Instr.isRemark_uncoded {i : Instr} (remark : i.isRemark = true) :
    i.opcode? = none ∧ i.label? = none ∧ i.blob? = none ∧ i.fields = [] := by
  cases i with
  | comment _ | location _ _ _ => exact ⟨rfl, rfl, rfl, rfl⟩
  | _ => cases remark

theorem Instr.filterMap_essentials {α : Type} {f : Instr → Option α} (program : List Instr)
    (nothing : ∀ i : Instr, i.isRemark = true → f i = none) :
    (essentials program).filterMap f = program.filterMap f := by
  induction program with
  | nil => rfl
  | cons i rest ih =>
    cases remark : i.isRemark with
    | true => simpa [essentials, remark, nothing i remark] using ih
    | false => simpa [essentials, remark, filterMap_cons] using by rw [← ih]; rfl

theorem CodeField.known_essentials {field : CodeField} :
    field.Known layout (Instr.essentials program) ↔ field.Known layout program := by
  have labels := filterMap_essentials program fun _ remark => (isRemark_uncoded remark).2.1
  have blobs := filterMap_essentials program fun _ remark => (isRemark_uncoded remark).2.2.1
  cases field with
  | immediate imm => cases imm <;> simp only [Known, labels, blobs]
  | target label => simp only [Known, labels]
  | slot slot =>
    obtain ⟨base, offset⟩ := slot
    cases base <;> rfl
  | amount amount => cases amount <;> rfl
  | _ => rfl

theorem closed_essentials : Closed layout program ↔ Closed layout (Instr.essentials program)
      ∧ ∀ i ∈ program, ∀ frame, i.markedFrame? = some frame → layout.Has frame := by
  have labels := filterMap_essentials program fun _ remark => (isRemark_uncoded remark).2.1
  constructor
  · rintro ⟨distinct, marked, fields⟩
    refine ⟨⟨labels ▸ distinct, fun i member => marked i (mem_of_mem_filter member), ?_⟩, marked⟩
    exact fun i member field is_field =>
      CodeField.known_essentials.mpr (fields i (mem_of_mem_filter member) field is_field)
  · rintro ⟨⟨distinct, _, fields⟩, marked⟩
    refine ⟨labels ▸ distinct, marked, fun i member field is_field => ?_⟩
    cases remark : i.isRemark with
    | true => simp [(isRemark_uncoded remark).2.2.2] at is_field
    | false =>
      exact CodeField.known_essentials.mp
        (fields i (mem_filter.mpr ⟨member, by simp [remark]⟩) field is_field)

namespace Assembler
variable {a : Assembler} {s : Symbols}

theorem lay_essentials (program : List Instr) (pos : Nat) : a.lay (Instr.essentials program) pos
      = (a.lay program pos).filter fun p => !p.instr.isRemark := by
  induction program generalizing pos with
  | nil => rfl
  | cons i rest ih =>
    cases remark : i.isRemark with
    | true =>
      obtain ⟨uncoded, _, no_blob, _⟩ := isRemark_uncoded remark
      have nothing : a.measure i = 0 := by
        simp [measure, sizeOf_uncoded uncoded, content_of_blob? no_blob]
      simpa [Instr.essentials, remark, lay, nothing] using ih pos
    | false => simpa [Instr.essentials, remark, lay] using ih _

def bytesOf (a : Assembler) (s : Symbols) (p : Placed) : List UInt8 :=
  match a.write s p with
  | .ok part => part.1
  | .error _ => []

theorem flatMap_bytesOf {placed : List Placed} {parts : List (List UInt8 × List Marker)}
    (written : Forall₂ (fun p part => a.write s p = .ok part) placed parts) :
    parts.flatMap Prod.fst = placed.flatMap (a.bytesOf s) := by
  induction written with
  | nil => rfl
  | cons first _ ih => simp [ih, bytesOf, first]

theorem flatMap_bytesOf_essentials (placed : List Placed) :
    (placed.filter fun p => !p.instr.isRemark).flatMap (a.bytesOf s) = placed.flatMap
    (a.bytesOf s) := by
  induction placed with
  | nil => rfl
  | cons p rest ih =>
    cases remark : p.instr.isRemark with
    | true =>
      obtain ⟨uncoded, _, no_blob, _⟩ := isRemark_uncoded remark
      have nothing : a.bytesOf s p = [] := by
        unfold bytesOf
        split
        · next part written =>
            exact (write_uncoded uncoded written).trans (content_of_blob? no_blob)
        · rfl
      simpa [remark, nothing] using ih
    | false => simp [remark, ih]

theorem labelOffsets_essentials (placed : List Placed) :
    labelOffsets (placed.filter fun p => !p.instr.isRemark) = labelOffsets placed := by
  rw [labelOffsets_eq, labelOffsets_eq, filterMap_filter]
  refine filterMap_congr fun p _ => ?_
  cases remark : p.instr.isRemark with
  | true => simp [(isRemark_uncoded remark).2.1]
  | false => simp

theorem constantOffsets_essentials (placed : List Placed) :
    constantOffsets (placed.filter fun p => !p.instr.isRemark) = constantOffsets placed := by
  rw [constantOffsets_eq, constantOffsets_eq, filterMap_filter]
  refine congrArg reverse (filterMap_congr fun p _ => ?_)
  cases remark : p.instr.isRemark with
  | true => simp [(isRemark_uncoded remark).2.2.1]
  | false => simp

theorem image_essentials {blobs : List (ConstantId × List UInt8)} {image : Image}
    (assembled : a.assemble instrs blobs = .ok image) :
    let placed := a.lay (Instr.essentials (withBlobs instrs blobs)) 0
    image.code = placed.flatMap (a.bytesOf (.ofPlaced placed)) ∧ image.labels = labelOffsets placed
      ∧ image.constants = constantOffsets placed := by
  obtain ⟨_, _, parts, written, rfl⟩ := assemble_ok_iff.mp assembled
  have symbols : Symbols.ofPlaced (a.lay (Instr.essentials (withBlobs instrs blobs)) 0)
      = .ofPlaced (a.lay (withBlobs instrs blobs) 0) := by
    rw [Symbols.ofPlaced, lay_essentials, labelOffsets_essentials, constantOffsets_essentials]
    rfl
  refine ⟨?_, ?_, ?_⟩
  · rw [symbols, lay_essentials, flatMap_bytesOf_essentials, flatMap_bytesOf written]
  · rw [lay_essentials, labelOffsets_essentials]
  · rw [lay_essentials, constantOffsets_essentials]

end Assembler

structure Program.Echoes (p q : Program) : Prop where
  instrs : Instr.essentials q.instrs = Instr.essentials p.instrs
  layout : q.layout = p.layout
  blobs : q.blobs = p.blobs
  optimize : q.optimize = p.optimize

/-- The marks of the program name frames that it has. -/
def Program.Marked (p : Program) : Prop :=
  ∀ i ∈ p.instrs, ∀ frame, i.markedFrame? = some frame → p.layout.Has frame

namespace Program.Echoes
variable {p q : Program}

theorem withBlobs_eq (echoes : p.Echoes q) : Instr.essentials (Assembler.withBlobs q.instrs q.blobs)
      = Instr.essentials (Assembler.withBlobs p.instrs p.blobs) := by
  rw [Assembler.withBlobs, Assembler.withBlobs, essentials_append, essentials_append,
    echoes.instrs, echoes.blobs]

theorem marked_withBlobs (marked : p.Marked) :
    ∀ i ∈ Assembler.withBlobs p.instrs p.blobs, ∀ frame, i.markedFrame? = some frame →
    p.layout.Has frame := by
  intro i member frame is_frame
  obtain instr | blob := mem_append.mp member
  · exact marked i instr frame is_frame
  · obtain ⟨_, _, rfl⟩ := mem_map.mp blob
    cases is_frame

theorem assembles_iff_closed (marked : p.Marked) : (∃ image, p.assemble = .ok image)
    ↔ Closed p.layout (Instr.essentials (Assembler.withBlobs p.instrs p.blobs)) := by
  rw [Program.assemble, Assembler.assembles_iff, closed_essentials]
  exact and_iff_left (marked_withBlobs marked)

theorem assembles_iff (echoes : p.Echoes q) (marked : p.Marked) (marked' : q.Marked) :
    (∃ image, q.assemble = .ok image) ↔ ∃ image, p.assemble = .ok image := by
  rw [assembles_iff_closed marked', assembles_iff_closed marked, echoes.withBlobs_eq, echoes.layout]

theorem image_eq (echoes : p.Echoes q) {image image' : Image} (first : p.assemble = .ok image)
    (second : q.assemble = .ok image') :
    image'.code = image.code ∧ image'.labels = image.labels
    ∧ image'.constants = image.constants := by
  rw [Program.assemble] at first second
  obtain ⟨code, labels, constants⟩ := Assembler.image_essentials first
  obtain ⟨code', labels', constants'⟩ := Assembler.image_essentials second
  rw [code, labels, constants, code', labels', constants', echoes.withBlobs_eq, echoes.layout,
    echoes.optimize]
  exact ⟨rfl, rfl, rfl⟩

end Program.Echoes

namespace Module
variable {m : Module} {options : Options}

theorem finish_marked {p : Program} (vetted : m.Vetted) (finished : m.finish = .ok p) :
    p.Marked := by
  obtain ⟨ranges, c, run, instrs, layout, -⟩ := lowered_of_finish finished
  intro i member frame marked
  rw [instrs] at member
  rw [layout]
  obtain ⟨before, after, split⟩ := append_of_mem member
  have standing :=
    Tracing.standing_of_visits (t := m.untraced) vetted (visits_lowerModule run) split
  exact (known_of_standing vetted run standing).1 frame marked

theorem finish_remarking (comments locations : Bool) : (∃ fault, m.finish = .error fault
      ∧ (m.switched { m.options with emitComments := comments, emitLocations := locations }).finish
      = .error fault)
    ∨ ∃ p q, m.finish = .ok p
      ∧ (m.switched { m.options with emitComments := comments, emitLocations := locations }).finish
      = .ok q
      ∧ p.Echoes q := by
  set m' := m.switched
    { m.options with emitComments := comments, emitLocations := locations } with is_switched
  have echoes : m.context.Echoes m'.context := ⟨⟨rfl, rfl, rfl, rfl, rfl, rfl, rfl⟩, rfl, rfl⟩
  have abreast : Abreast (outcome (lowerModule m.functions m.entry) m.context)
      (outcome (lowerModule m.functions m.entry) m'.context) := abreast_lowerModule echoes
  have undefined : m'.undefined? = m.undefined? := rfl
  have lowered : (lowerModule m'.functions m'.entry).run m'.context
      = outcome (lowerModule m.functions m.entry) m'.context := rfl
  have lowered' : (lowerModule m.functions m.entry).run m.context
      = outcome (lowerModule m.functions m.entry) m.context := rfl
  simp only [finish, undefined, lowered, lowered']
  cases m.undefined? with
  | some decl => exact .inl ⟨_, rfl, rfl⟩
  | none =>
    generalize outcome (lowerModule m.functions m.entry) m.context = left at abreast
    generalize outcome (lowerModule m.functions m.entry) m'.context = right at abreast
    cases abreast with
    | stopped => exact .inl ⟨_, rfl, rfl⟩
    | ended echoes =>
      simp only [echoes.frames, echoes.statics, echoes.constants]
      split
      · exact .inl ⟨_, rfl, rfl⟩
      · exact .inr ⟨_, _, rfl, rfl, ⟨echoes.code, rfl, rfl, rfl⟩⟩

/-- Remarks never change the code. -/
theorem remarks_change_nothing (options : Options) (comments locations : Bool) (file : String)
    (calls : List ModuleCall) : (∃ fault, (build options file calls).finish = .error fault
      ∧ (build { options with emitComments := comments, emitLocations := locations }
        file calls).finish
        = .error fault)
    ∨ ∃ p q, (build options file calls).finish = .ok p
      ∧ (build { options with emitComments := comments, emitLocations := locations } file
        calls).finish = .ok q
      ∧ q.instrs.filter (fun i => !i.isRemark) = p.instrs.filter (fun i => !i.isRemark)
      ∧ q.layout = p.layout ∧ q.blobs = p.blobs
      ∧ ((∃ image, q.assemble = .ok image) ↔ ∃ image, p.assemble = .ok image)
      ∧ ∀ image image', p.assemble = .ok image → q.assemble = .ok image' →
        image'.code = image.code ∧ (∀ label, image'.labelOffset? label = image.labelOffset? label)
          ∧ ∀ id, image'.constantOffset? id = image.constantOffset? id := by
  have switched :
      build { options with emitComments := comments, emitLocations := locations } file calls
      = (build options file calls).switched
        { (build options file calls).options with
          emitComments := comments, emitLocations := locations } := by
    rw [options_build]
    exact build_switched options _ file calls rfl
  have vetted := vetted_build options file calls
  have vetted' :=
    vetted_build { options with emitComments := comments, emitLocations := locations } file calls
  rw [switched] at vetted' ⊢
  obtain stopped | ⟨p, q, finished, finished', echoes⟩ :=
    (build options file calls).finish_remarking comments locations
  · exact .inl stopped
  refine .inr ⟨p, q, finished, finished', echoes.instrs, echoes.layout, echoes.blobs,
    echoes.assembles_iff (finish_marked vetted finished) (finish_marked vetted' finished'),
    fun image image' first second => ?_⟩
  obtain ⟨code, labels, constants⟩ := echoes.image_eq first second
  exact ⟨code, fun label => by rw [Image.labelOffset?, labels]; rfl,
    fun id => by rw [Image.constantOffset?, constants]; rfl⟩

end Module

end RegisterBackend
