import RegisterBackend.Proofs.RoundTrip

/-!
Why a program is refused by the assembler. The checks that the passes make on each other never fail.
-/
namespace RegisterBackend

open CodeField List

variable {field : CodeField} {frame : FrameId} {i : Instr} {program instrs : List Instr}
  {layout : FrameLayout} {pos : Nat} {ε α β : Type}

namespace CodeField

def frame? : CodeField → Option FrameId
  | .slot place => place.frame?
  | .amount (.enter frame) => some frame
  | .amount (.leave frame) => some frame
  | _ => none

def label? : CodeField → Option LabelId
  | .target label => some label
  | .immediate (.labelAddress label) => some label
  | _ => none

def constant? : CodeField → Option ConstantId
  | .immediate (.constantAddress id) => some id
  | _ => none

end CodeField

namespace Instr

/-- The frame of a slot, of a move of the stack pointer or of a location mark. The position
that a mark reports is not resolved, so a frame there does not count. -/
def NamesFrame (i : Instr) (frame : FrameId) : Prop :=
  i.markedFrame? = some frame ∨ ∃ field ∈ i.fields, field.frame? = some frame

/-- The target of a jump or call, or a label whose address is an immediate. -/
def NamesLabel (i : Instr) (label : LabelId) : Prop :=
  ∃ field ∈ i.fields, field.label? = some label

def NamesConstant (i : Instr) (id : ConstantId) : Prop :=
  ∃ field ∈ i.fields, field.constant? = some id

end Instr

theorem mem_labels_iff {label : LabelId} :
    label ∈ program.filterMap Instr.label? ↔ .label label ∈ program := by
  simp [Instr.label?_eq_some]

theorem mem_blobs_iff {id : ConstantId} :
    id ∈ program.filterMap Instr.blob? ↔ ∃ bytes, .data id bytes ∈ program := by
  simp only [mem_filterMap, Instr.blob?_eq_some]
  constructor
  · rintro ⟨_, member, bytes, rfl⟩
    exact ⟨bytes, member⟩
  · rintro ⟨bytes, member⟩
    exact ⟨_, member, bytes, rfl⟩

theorem CodeField.known_iff :
    field.Known layout program ↔ (∀ frame, field.frame? = some frame → layout.Has frame)
      ∧ (∀ label, field.label? = some label → .label label ∈ program)
      ∧ ∀ id, field.constant? = some id → ∃ bytes, .data id bytes ∈ program := by
  simp only [← mem_labels_iff, ← mem_blobs_iff]
  cases field with
  | immediate imm => cases imm <;> simp [Known, frame?, label?, constant?]
  | slot slot =>
    obtain ⟨base, offset⟩ := slot
    cases base <;> simp [Known, frame?, label?, constant?, StackSlot.frame?]
  | amount amount => cases amount <;> simp [Known, frame?, label?, constant?]
  | _ => simp [Known, frame?, label?, constant?]

theorem closed_iff : Closed layout program ↔
    (program.filterMap Instr.label?).Nodup
    ∧ (∀ i ∈ program, ∀ frame, i.NamesFrame frame → layout.Has frame)
      ∧ (∀ i ∈ program, ∀ label, i.NamesLabel label → .label label ∈ program)
      ∧ ∀ i ∈ program, ∀ id, i.NamesConstant id → ∃ bytes, .data id bytes ∈ program := by
  constructor
  · rintro ⟨distinct, marked, fields⟩
    refine ⟨distinct, fun i member frame names => ?_, fun i member label names => ?_,
      fun i member id names => ?_⟩
    · rcases names with marks | ⟨field, listed, is_frame⟩
      · exact marked i member frame marks
      · exact (known_iff.mp (fields i member field listed)).1 frame is_frame
    · obtain ⟨field, listed, is_label⟩ := names
      exact (known_iff.mp (fields i member field listed)).2.1 label is_label
    · obtain ⟨field, listed, is_constant⟩ := names
      exact (known_iff.mp (fields i member field listed)).2.2 id is_constant
  · rintro ⟨distinct, frames, labels, constants⟩
    exact ⟨distinct, fun i member frame marks => frames i member frame (.inl marks),
      fun i member field listed => known_iff.mpr
        ⟨fun frame is_frame => frames i member frame (.inr ⟨field, listed, is_frame⟩),
          fun label is_label => labels i member label ⟨field, listed, is_label⟩,
          fun id is_constant => constants i member id ⟨field, listed, is_constant⟩⟩⟩

/-- What the error says of the program is so. The errors by which the assembler contradicts
itself say nothing that can be so. -/
def AssemblyError.Holds (layout : FrameLayout) (program : List Instr) : AssemblyError → Prop
  | .labelTwice label => List.Duplicate label (program.filterMap Instr.label?)
  | .unknownFrame frame => (∃ i ∈ program, i.NamesFrame frame) ∧ ¬layout.Has frame
  | .unplacedLabel label => (∃ i ∈ program, i.NamesLabel label) ∧ .label label ∉ program
  | .unplacedTarget label => (∃ i ∈ program, i.NamesLabel label) ∧ .label label ∉ program
  | .unplacedConstant id => (∃ i ∈ program, i.NamesConstant id) ∧ ∀ bytes, .data id bytes ∉ program
  | _ => False

theorem Except.map_error_iff {f : α → β} {x : Except ε α} {e : ε} :
    x.map f = .error e ↔ x = .error e := by
  cases x <;> simp [Except.map]

theorem mapM_error {f : α → Except ε β} {xs : List α} {e : ε}
    (failed : xs.mapM f = .error e) : ∃ x ∈ xs, f x = .error e := by
  induction xs with
  | nil => cases failed
  | cons x rest ih =>
    rw [mapM_cons] at failed
    cases h : f x with
    | error _ =>
      rw [h] at failed
      cases failed
      exact ⟨x, by simp, h⟩
    | ok y =>
      cases h' : rest.mapM f with
      | error _ =>
        simp only [h, h', bind, Except.bind] at failed
        obtain ⟨x', member, is_error⟩ := ih (h'.trans failed)
        exact ⟨x', by simp [member], is_error⟩
      | ok ys => simp [h, h', bind, Except.bind, pure, Except.pure] at failed

namespace Assembler
variable {a : Assembler} {e : AssemblyError} {p : Placed}

theorem frameSize_error (failed : layout.frameSize frame = .error e) :
    e = .unknownFrame frame ∧ ¬layout.Has frame := by
  have absent : ¬layout.Has frame := fun has => by
    obtain ⟨size, known⟩ := frameSize_of_has has
    cases failed.symm.trans known
  unfold FrameLayout.frameSize at failed
  split at failed <;> cases failed
  exact ⟨rfl, absent⟩

theorem stackAmount_error {amount : StackAmount} (failed : layout.stackAmount amount = .error e) :
    ∃ frame, (CodeField.amount amount).frame? = some frame ∧ layout.frameSize frame = .error e := by
  cases amount with
  | enter frame | leave frame =>
    exact ⟨frame, rfl, Except.map_error_iff.mp (Except.map_error_iff.mp failed)⟩
  | statics => cases failed

theorem holds_unknownFrame (member : i ∈ program) (names : i.NamesFrame frame)
    (failed : a.layout.frameSize frame = .error e) : e.Holds a.layout program := by
  obtain ⟨rfl, absent⟩ := frameSize_error failed
  exact ⟨⟨i, member, names⟩, absent⟩

theorem operand_error {next : Nat} (member : i ∈ program) (listed : field ∈ i.fields)
    (failed : a.operand (.ofPlaced (a.lay program pos)) next field = .error e) :
    e.Holds a.layout program := by
  have unknown : ¬field.Known a.layout program := fun known => by
    obtain ⟨operand, resolved⟩ := resolves_iff.mpr known
    cases failed.symm.trans (operand_ok_iff.mpr resolved)
  cases field with
  | immediate imm =>
    cases imm with
    | value bits => cases failed
    | constantAddress id =>
      obtain rfl : AssemblyError.unplacedConstant id = e := by
        have missed := Except.map_error_iff.mp failed
        simp only [Symbols.immediate] at missed
        split at missed <;> cases missed
        rfl
      exact ⟨⟨i, member, _, listed, rfl⟩, not_exists.mp (mt mem_blobs_iff.mpr unknown)⟩
    | labelAddress label =>
      obtain rfl : AssemblyError.unplacedLabel label = e := by
        have missed := Except.map_error_iff.mp failed
        simp only [Symbols.immediate] at missed
        split at missed <;> cases missed
        rfl
      exact ⟨⟨i, member, _, listed, rfl⟩, mt mem_labels_iff.mpr unknown⟩
  | slot slot =>
    obtain ⟨base, offset⟩ := slot
    cases base with
    | frame frame =>
      have missed := Except.map_error_iff.mp (Except.map_error_iff.mp failed)
      exact holds_unknownFrame member (.inr ⟨_, listed, rfl⟩) missed
    | outgoing => cases failed
  | amount amount =>
    obtain ⟨frame, is_frame, missed⟩ := stackAmount_error (Except.map_error_iff.mp failed)
    exact holds_unknownFrame member (.inr ⟨_, listed, is_frame⟩) missed
  | target label =>
    obtain rfl : AssemblyError.unplacedTarget label = e := by
      have missed := Except.map_error_iff.mp failed
      unfold Symbols.relative at missed
      split at missed <;> cases missed
      rfl
    exact ⟨⟨i, member, _, listed, rfl⟩, mt mem_labels_iff.mpr unknown⟩
  | _ => cases failed

theorem sizeOf_error (member : i ∈ program) (failed : a.sizeOf i = .error e) :
    e.Holds a.layout program := by
  have in_elides : a.elides i = .error e := Except.map_error_iff.mp failed
  unfold elides at in_elides
  split at in_elides
  · cases in_elides
  · cases i with
    | stackAdjust amount =>
      obtain ⟨frame, is_frame, unknown⟩ := stackAmount_error (Except.map_error_iff.mp in_elides)
      exact holds_unknownFrame member
        (.inr ⟨.amount amount, by simp [Instr.fields], is_frame⟩) unknown
    | _ => cases in_elides

theorem placeFrom_error {seen : List LabelId} (failed : a.placeFrom program pos seen = .error e) :
    (∃ i ∈ program, a.sizeOf i = .error e) ∨ ∃ label, e = .labelTwice label
      ∧ List.Duplicate label (program.filterMap Instr.label? ++ seen) := by
  induction program generalizing pos seen with
  | nil => cases failed
  | cons i rest ih =>
    cases sized : a.sizeOf i with
    | error _ =>
      rw [placeFrom, sized] at failed
      cases failed
      exact .inl ⟨i, by simp, sized⟩
    | ok size =>
      rw [placeFrom_cons sized] at failed
      cases is_label : i.label? with
      | none =>
        rw [filterMap_cons_none is_label]
        simp only [is_label] at failed
        rcases ih (Except.map_error_iff.mp failed) with ⟨j, member, unsized⟩ | twice
        · exact .inl ⟨j, by simp [member], unsized⟩
        · exact .inr twice
      | some id =>
        rw [filterMap_cons_some is_label]
        simp only [is_label] at failed
        split at failed
        · next seen_before =>
          cases failed
          refine .inr ⟨id, rfl, List.Mem.duplicate_cons_self ?_⟩
          exact mem_append_right _ seen_before
        · rcases ih (Except.map_error_iff.mp failed) with
            ⟨j, member, unsized⟩ | ⟨label, is_twice, twice⟩
          · exact .inl ⟨j, by simp [member], unsized⟩
          · refine .inr ⟨label, is_twice, ?_⟩
            simp only [duplicate_iff_two_le_count, count_append, count_cons,
              cons_append] at twice ⊢
            omega

theorem write_error (member : p.instr ∈ program)
    (failed : a.write (.ofPlaced (a.lay program pos)) p = .error e) : e.Holds a.layout program := by
  obtain ⟨i, start, size⟩ := p
  cases coded : i.opcode? with
  | none =>
    cases i <;> simp only [Instr.opcode?, reduceCtorEq] at coded
    case location name place frame =>
      cases frame with
      | none => cases failed
      | some frame =>
        refine holds_unknownFrame member (.inl (rfl : _ = some frame)) ?_
        cases h : a.layout.frameSize frame <;>
          simp_all [write, bind, Except.bind, pure, Except.pure]
    all_goals cases failed
  | some op =>
    rw [write_coded coded] at failed
    split at failed
    · cases failed
    · have is_coded : i.opcode?.isSome = true := by simp [coded]
      cases shown : a.operands (.ofPlaced (a.lay program pos)) (start + size) i with
      | error _ =>
        rw [shown] at failed
        cases failed
        rw [operands_eq_mapM is_coded] at shown
        obtain ⟨field, listed, is_error⟩ := mapM_error shown
        exact operand_error member listed is_error
      | ok operands =>
        -- What the fields stand for is always of the kinds that the opcode takes.
        obtain ⟨bytes, encoded⟩ :=
          Opcode.encode_of_shows coded ((operands_ok_iff is_coded).mp shown)
        simp [shown, encoded, bind, Except.bind, pure, Except.pure] at failed

theorem assemble_error {blobs : List (ConstantId × List UInt8)}
    (failed : a.assemble instrs blobs = .error e) : e.Holds a.layout (withBlobs instrs blobs) := by
  rw [assemble, place] at failed
  cases planned : a.placeFrom (withBlobs instrs blobs) 0 [] with
  | error _ =>
    rw [planned] at failed
    cases failed
    rcases placeFrom_error planned with ⟨i, member, unsized⟩ | ⟨label, rfl, twice⟩
    · exact sizeOf_error member unsized
    · rwa [append_nil] at twice
  | ok placed =>
    obtain ⟨sized, _, _, rfl⟩ := placeFrom_ok_iff.mp planned
    simp only [planned, writeFrom_lay sized] at failed
    cases written : (a.lay (withBlobs instrs blobs) 0).mapM
        (a.write (.ofPlaced (a.lay (withBlobs instrs blobs) 0))) with
    | ok parts => simp [written, Except.map] at failed
    | error _ =>
      simp only [written, Except.map] at failed
      cases failed
      obtain ⟨p, placed, unwritten⟩ := mapM_error written
      obtain ⟨before, after, split, _⟩ := mem_lay.mp placed
      exact write_error (by simp [split]) unwritten

theorem position_lay {before after : List Placed}
    (split : a.lay program pos = before ++ p :: after) :
    p.position = pos + (before.map Placed.size).sum := by
  induction before generalizing program pos with
  | nil =>
    cases program with
    | nil => cases split
    | cons i rest =>
      cases split
      rfl
  | cons q before ih =>
    cases program with
    | nil => cases split
    | cons i rest =>
      rw [lay, cons_append, List.cons.injEq] at split
      obtain ⟨rfl, others⟩ := split
      rw [ih others, map_cons, sum_cons, Nat.add_assoc]

/-- A program is refused only for a label placed twice or for a frame, label or blob that it
names and that is not there, and the error says which. An image is as long as planned. -/
theorem assemble_refusals (a : Assembler) (instrs : List Instr)
    (blobs : List (ConstantId × List UInt8)) : let program := withBlobs instrs blobs
    ((∃ image, a.assemble instrs blobs = .ok image) ↔
        (program.filterMap Instr.label?).Nodup
          ∧ (∀ i ∈ program, ∀ frame, i.NamesFrame frame → a.layout.Has frame)
          ∧ (∀ i ∈ program, ∀ label, i.NamesLabel label → .label label ∈ program)
          ∧ ∀ i ∈ program, ∀ id, i.NamesConstant id → ∃ bytes, .data id bytes ∈ program)
      ∧ (∀ e, a.assemble instrs blobs = .error e → e.Holds a.layout program)
      ∧ ∀ image, a.assemble instrs blobs = .ok image →
        ∃ placed, a.place instrs blobs = .ok placed ∧ placed.map Placed.instr = program
          ∧ image.code.length = (placed.map Placed.size).sum
          ∧ ∀ before p after, placed = before ++ p :: after →
            p.position = (before.map Placed.size).sum := by
  refine ⟨assembles_iff.trans closed_iff, fun e => assemble_error, fun image assembled => ?_⟩
  obtain ⟨sized, distinct, _⟩ := assemble_ok_iff.mp assembled
  refine ⟨_, placeFrom_ok_iff.mpr ⟨sized, distinct, by simp, rfl⟩, map_instr_lay _ _, ?_, ?_⟩
  · rw [map_size_lay]
    exact size_image assembled
  · intro before p after split
    simpa using position_lay split

end Assembler

end RegisterBackend
