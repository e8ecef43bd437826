import RegisterBackend.Proofs.Execution
import RegisterBackend.Proofs.RoundTrip

/-!
Leaving out instructions that do nothing: all else keeps its order and its fields, apart from
distances and addresses in the image.
-/
namespace RegisterBackend

open List FrameLayout Instr

variable {a : Assembler} {i : Instr} {n size : Nat} {program : List Instr}
  {link : Link} {α β : Type} {R : α → β → Prop} {xs : List α} {ys : List β}

/-- Where the areas have these sizes, the instruction does nothing but go on. -/
def Instr.Idles (layout : FrameLayout) (i : Instr) : Prop :=
  ∀ (hw : Hardware) (link : Link) (code : List Instr) (q : Processor), link.layout = layout →
    code[q.pc]? = some i → q.step? hw link code = some { q with pc := q.pc + 1 }

theorem AluOp.eval_of_isIdentity {op : AluOp} {bits : Word} (identity : op.isIdentity bits = true)
    (hw : Hardware) (a : Word) : op.eval hw a bits = a := by
  cases op <;> simp only [isIdentity, beq_iff_eq, Bool.false_eq_true] at identity <;> subst identity
  all_goals simp [eval, divides, shifts]

theorem Link.frameSize_eq {frame : FrameId} (known : link.layout.frameSize frame = .ok size) :
    link.frameSize frame = size := by
  have found : link.layout.frameSizes[frame.index]? = some size := by
    cases h : link.layout.frameSizes[frame.index]? <;> simp_all [FrameLayout.frameSize]
  rw [frameSize, Array.getD_eq_getD_getElem?, found, Option.getD_some]

theorem Link.amount_eq_zero {amount : StackAmount}
    (still : link.layout.stackAmount amount = .ok 0) : link.amount amount = 0 := by
  have sized {frame : FrameId} {f : Int → Int}
      (known : (Nat.cast <$> link.layout.frameSize frame).map f = .ok 0) :
      f (link.frameSize frame) = 0 := by
    obtain ⟨_, lifted, is_zero⟩ := Except.map_ok_iff.mp known
    obtain ⟨size, is_size, rfl⟩ := Except.map_ok_iff.mp lifted
    rwa [frameSize_eq is_size]
  cases amount with
  | enter frame | leave frame =>
    have eight : link.frameSize frame = 8 := by
      have := sized (by simpa [stackAmount] using still)
      omega
    simp [amount, eight]
  | statics =>
    have empty : link.layout.staticSize = 0 := by simpa [stackAmount] using still
    simp [amount, empty]

theorem Assembler.idles_of_elides (elided : a.elides i = .ok true) : i.Idles a.layout := by
  intro hw link code q same fetched
  unfold elides at elided
  split at elided
  · cases elided
  · cases i with
    | stackAdjust amount =>
      obtain ⟨d, is_amount, zero⟩ := Except.map_ok_iff.mp elided
      obtain rfl : d = 0 := by simpa using zero
      simp [Processor.step?, fetched, Link.amount_eq_zero (same ▸ is_amount)]
    | mov dst src =>
      obtain rfl : dst = src := by simpa [isNoop] using elided
      simp [Processor.step?, fetched, execute, MachineState.set_self rfl]
    | aluImm op dst imm =>
      cases imm with
      | value bits =>
        have identity : op.isIdentity bits = true := by simpa [isNoop] using elided
        simp [Processor.step?, fetched, execute, Placement.imm, AluOp.eval_of_isIdentity identity,
          MachineState.set_self rfl]
      | _ => simp [isNoop] at elided
    | _ => simp [isNoop] at elided

/-- The field is shown as a distance or an address in the image. -/
def CodeField.isSymbolic : CodeField → Bool
  | .immediate (.constantAddress _) => true
  | .immediate (.labelAddress _) => true
  | .target _ => true
  | _ => false

theorem CodeField.resolve_of_not_symbolic {field : CodeField} {r r' : Resolution}
    (same : r'.layout = r.layout) (fixed : field.isSymbolic = false) (next next' : Nat) :
    field.resolve r' next' = field.resolve r next := by
  cases field with
  | immediate imm => cases imm <;> simp_all [isSymbolic, resolve]
  | slot slot =>
    obtain ⟨base, offset⟩ := slot
    cases base <;> simp [resolve, Resolution.frameSize?, same]
  | amount amount => cases amount <;> simp [resolve, Resolution.frameSize?, same]
  | target label => cases fixed
  | _ => rfl

/-- An instruction as it stands in two images: each shows its own distances and addresses, and
all else is the same. -/
structure Relocates (layout : FrameLayout) (long short : Image) (i : Instr)
    (d e : Decoded) : Prop where
  long : (long.resolution layout).Renders i d
  short : (short.resolution layout).Renders i e
  op : e.op = d.op
  fixed : ∀ (n : Nat) (field : CodeField), i.fields[n]? = some field → field.isSymbolic = false →
    e.operands[n]? = d.operands[n]?

/-- The instructions of the longer image become those of the shorter one when those that do
nothing are deleted; `removed` bytes were saved before. -/
inductive Shrinks (layout : FrameLayout) (long short : Image) :
    (removed : Nat) → List Instr → List Decoded → List Decoded → Prop
  | nil {removed : Nat} : Shrinks layout long short removed [] [] []
  | mark {removed : Nat} {i : Instr} {rest : List Instr} {ds es : List Decoded}
      (uncoded : i.opcode? = none) (others : Shrinks layout long short removed rest ds es) :
      Shrinks layout long short removed (i :: rest) ds es
  | delete {removed : Nat} {i : Instr} {rest : List Instr} {d : Decoded} {ds es : List Decoded}
      (elided : (⟨layout, true⟩ : Assembler).elides i = .ok true) (idles : i.Idles layout)
      (renders : (long.resolution layout).Renders i d)
      (others : Shrinks layout long short (removed + i.nominalSize) rest ds es) :
      Shrinks layout long short removed (i :: rest) (d :: ds) es
  | keep {removed : Nat} {i : Instr} {rest : List Instr} {d e : Decoded} {ds es : List Decoded}
      (kept : (⟨layout, true⟩ : Assembler).elides i = .ok false)
      (relocates : Relocates layout long short i d e) (moved : d.offset = e.offset + removed)
      (others : Shrinks layout long short removed rest ds es) :
      Shrinks layout long short removed (i :: rest) (d :: ds) (e :: es)

theorem forall₂_getElem? (related : Forall₂ R xs ys) {x : α} (found : xs[n]? = some x) :
    ∃ y, ys[n]? = some y ∧ R x y := by
  obtain ⟨small, rfl⟩ := List.getElem?_eq_some_iff.mp found
  have small' : n < ys.length := related.length_eq ▸ small
  exact ⟨ys[n], getElem?_eq_getElem small', related.get small small'⟩

theorem forall₂_mem (related : Forall₂ R xs ys) {x : α} (member : x ∈ xs) : ∃ y ∈ ys, R x y := by
  obtain ⟨n, at_n⟩ := mem_iff_getElem?.mp member
  obtain ⟨y, y_at, holds⟩ := forall₂_getElem? related at_n
  exact ⟨y, mem_of_getElem? y_at, holds⟩

theorem relocates_of_renders {layout : FrameLayout} {long short : Image} {d e : Decoded}
    (in_long : (long.resolution layout).Renders i d)
    (in_short : (short.resolution layout).Renders i e) : Relocates layout long short i d e := by
  refine ⟨in_long, in_short, Option.mem_unique in_short.op in_long.op, ?_⟩
  intro n field at_n fixed
  obtain ⟨x, x_at, x_resolved⟩ := forall₂_getElem? in_long.operands at_n
  obtain ⟨y, y_at, y_resolved⟩ := forall₂_getElem? in_short.operands at_n
  have same : (short.resolution layout).layout = (long.resolution layout).layout := rfl
  rw [x_at, y_at, ← x_resolved, ← y_resolved, CodeField.resolve_of_not_symbolic same fixed d.next]

namespace Assembler

def saved (a : Assembler) (program : List Instr) : Nat :=
  (program.map fun i => match a.elides i with
    | .ok true => i.nominalSize
    | _ => 0).sum

@[simp] theorem saved_cons (a : Assembler) (i : Instr) (rest : List Instr) :
    a.saved (i :: rest) = a.saved [i] + a.saved rest := by simp [saved]

section
variable {layout : FrameLayout}

theorem measure_plain (i : Instr) : (⟨layout, false⟩ : Assembler).measure i = i.nominalSize := rfl

theorem measure_of_elides {elided : Bool} (is_elided : a.elides i = .ok elided) :
    a.measure i = if elided then 0 else i.nominalSize := by
  simp [measure, sizeOf, is_elided, Except.map]

theorem elides_of_sizeOf (sized : a.sizeOf i = .ok size) : ∃ elided, a.elides i = .ok elided := by
  obtain ⟨elided, is_elided, _⟩ := Except.map_ok_iff.mp sized
  exact ⟨elided, is_elided⟩

theorem span_plain
    (sized : ∀ i ∈ program, ∃ size, (⟨layout, true⟩ : Assembler).sizeOf i = .ok size) :
    (⟨layout, false⟩ : Assembler).span program
      = (⟨layout, true⟩ : Assembler).span program + (⟨layout, true⟩ : Assembler).saved program := by
  induction program with
  | nil => rfl
  | cons i rest ih =>
    obtain ⟨size, is_size⟩ := sized i (by simp)
    obtain ⟨elided, is_elided⟩ := elides_of_sizeOf is_size
    rw [span_cons, span_cons, saved_cons, ih fun j member =>
      sized j (by simp [member]), measure_plain,
      measure_of_elides is_elided]
    cases elided <;> simp [saved, is_elided] <;> omega

theorem shrinks_of_rendered {long short : Image} {pos removed : Nat}
    {ds es : List Decoded} (no_data : ∀ i ∈ program, i.blob? = none)
    (sized : ∀ i ∈ program, ∃ size, (⟨layout, true⟩ : Assembler).sizeOf i = .ok size)
    (in_long : Forall₂
      (fun p d => d.offset = p.position ∧ (long.resolution layout).Renders p.instr d)
      (((⟨layout, false⟩ : Assembler).lay program (pos + removed)).filter
        fun p => (⟨layout, false⟩ : Assembler).emits p.instr) ds)
    (in_short : Forall₂
      (fun p e => e.offset = p.position ∧ (short.resolution layout).Renders p.instr e)
      (((⟨layout, true⟩ : Assembler).lay program pos).filter
        fun p => (⟨layout, true⟩ : Assembler).emits p.instr) es) :
    Shrinks layout long short removed program ds es := by
  induction program generalizing pos removed ds es with
  | nil =>
    cases in_long
    cases in_short
    exact .nil
  | cons i rest ih =>
    have no_data_rest (j : Instr) (member : j ∈ rest) := no_data j (by simp [member])
    have sized_rest (j : Instr) (member : j ∈ rest) := sized j (by simp [member])
    obtain ⟨size, is_size⟩ := sized i (by simp)
    obtain ⟨elided, is_elided⟩ := elides_of_sizeOf is_size
    simp only [lay, filter_cons, measure_plain] at in_long in_short
    rw [measure_of_elides is_elided] at in_short
    cases coded : i.opcode? with
    | none =>
      have nothing : i.nominalSize = 0 := by
        have size : i.nominalSize = i.content.length :=
          Except.ok.inj (sizeOf_uncoded (a := ⟨layout, false⟩) coded)
        rw [size, content_of_blob? (no_data i (by simp)), length_nil]
      simp only [not_emits_uncoded coded, nothing, ite_self, Bool.false_eq_true,
        ↓reduceIte] at in_long in_short
      exact .mark coded (ih no_data_rest sized_rest in_long in_short)
    | some op =>
      have plain_emits :
          (⟨layout, false⟩ : Assembler).emits i = true := by simp [emits, coded, elides]
      simp only [plain_emits, ↓reduceIte] at in_long
      obtain ⟨d, ds, ⟨at_long, d_renders⟩, long_rest, rfl⟩ := forall₂_cons_left_iff.mp in_long
      cases elided with
      | true =>
        simp only [emits, coded, is_elided, Bool.false_eq_true, ↓reduceIte] at in_short
        rw [Nat.add_assoc] at long_rest
        exact .delete is_elided (idles_of_elides is_elided) d_renders
          (ih no_data_rest sized_rest long_rest in_short)
      | false =>
        simp only [emits, coded, is_elided, Bool.false_eq_true, ↓reduceIte] at in_short
        obtain ⟨e, es, ⟨at_short, e_renders⟩, short_rest, rfl⟩ := forall₂_cons_left_iff.mp in_short
        rw [Nat.add_right_comm] at long_rest
        exact .keep is_elided (relocates_of_renders d_renders e_renders) (by rw [at_long, at_short])
          (ih no_data_rest sized_rest long_rest short_rest)

theorem rendered_from {r : Resolution} {before after : List Instr} {found : List Decoded}
    (sized : ∀ i ∈ before, ∃ size, a.sizeOf i = .ok size)
    (rendered : Forall₂ (fun p d => d.offset = p.position ∧ r.Renders p.instr d)
      ((a.lay (before ++ after) 0).filter fun p => a.emits p.instr) found) :
    Forall₂ (fun p d => d.offset = p.position ∧ r.Renders p.instr d)
      ((a.lay after (a.span before)).filter fun p => a.emits p.instr)
      (found.filter fun d => a.span before ≤ d.offset) := by
  rw [lay_append, filter_append, Nat.zero_add] at rendered
  obtain ⟨front, back, rfl, in_front, in_back⟩ := forall₂_append_split rendered
  have front_below (d : Decoded) (member : d ∈ front) : ¬a.span before ≤ d.offset := by
    obtain ⟨p, p_member, at_place, renders⟩ := forall₂_mem in_front.flip member
    obtain ⟨p_laid, emitted⟩ := mem_filter.mp p_member
    obtain ⟨earlier, later, rfl, pos, size⟩ := mem_lay.mp p_laid
    obtain ⟨planned, is_planned⟩ := sized p.instr (by simp)
    have positive : a.measure p.instr ≠ 0 := by
      simpa [measure, is_planned] using (emits_iff renders.op is_planned).mp emitted
    rw [at_place, pos, span_append, span_cons]
    omega
  have back_above (d : Decoded) (member : d ∈ back) : a.span before ≤ d.offset := by
    obtain ⟨p, p_member, at_place, renders⟩ := forall₂_mem in_back.flip member
    obtain ⟨earlier, later, _, pos, _⟩ := mem_lay.mp (mem_filter.mp p_member).1
    rw [at_place, pos]
    exact Nat.le_add_right _ _
  have suffix : (front ++ back).filter (fun d => decide (a.span before ≤ d.offset)) = back := by
    rw [filter_append, filter_eq_nil_iff.mpr (by simpa using front_below), nil_append,
      filter_eq_self.mpr (by simpa using back_above)]
  rwa [suffix]

end

/-- Leaving out what does nothing keeps all else. -/
theorem optimised_image_shrinks {layout : FrameLayout} {instrs : List Instr}
    {blobs : List (ConstantId × List UInt8)} (no_data : ∀ i ∈ instrs, i.blob? = none)
    (distinct : (blobs.map Prod.fst).Nodup) :
    ((∃ image, (⟨layout, true⟩ : Assembler).assemble instrs blobs = .ok image)
        ↔ ∃ image, (⟨layout, false⟩ : Assembler).assemble instrs blobs = .ok image)
      ∧ ∀ long short, (⟨layout, false⟩ : Assembler).assemble instrs blobs = .ok long →
        (⟨layout, true⟩ : Assembler).assemble instrs blobs = .ok short →
        ∃ code ds code' es,
          long.code = code ++ blobs.flatMap Prod.snd ∧ disassemble long.code code.length = .ok ds
          ∧ short.code = code' ++ blobs.flatMap Prod.snd
          ∧ disassemble short.code code'.length = .ok es
          ∧ Shrinks layout long short 0 instrs ds es
          ∧ (∀ before label after, instrs = before ++ .label label :: after →
            ∃ offset, short.labelOffset? label = some offset
              ∧ long.labelOffset? label = some (offset + (⟨layout, true⟩ : Assembler).saved before)
              ∧ Shrinks layout long short ((⟨layout, true⟩ : Assembler).saved before)
                (.label label :: after)
                (ds.filter fun d => offset + (⟨layout, true⟩ : Assembler).saved before ≤ d.offset)
                (es.filter fun e => offset ≤ e.offset))
          ∧ ∀ id ∈ blobs.map Prod.fst, ∃ offset, short.constantOffset? id = some offset
            ∧ long.constantOffset? id
            = some (offset + (⟨layout, true⟩ : Assembler).saved instrs) := by
  refine ⟨assembles_iff.trans (assembles_iff (a := ⟨layout, false⟩)).symm,
    fun long short in_long in_short => ?_⟩
  obtain ⟨sized, _⟩ := assemble_ok_iff.mp in_short
  have sized_instrs (i : Instr) (member : i ∈ instrs) := sized i (by simp [withBlobs, member])
  have sized_plain (i : Instr) (_ : i ∈ instrs) :
      ∃ size, (⟨layout, false⟩ : Assembler).sizeOf i = .ok size :=
    ⟨_, rfl⟩
  obtain ⟨code, ds, long_code, _, long_decoded, long_rendered⟩ := image_parts no_data in_long
  obtain ⟨code', es, short_code, _, short_decoded, short_rendered⟩ := image_parts no_data in_short
  refine ⟨code, ds, code', es, long_code, long_code ▸ disassemble_code long_decoded, short_code,
    short_code ▸ disassemble_code short_decoded,
    shrinks_of_rendered no_data sized_instrs long_rendered short_rendered, ?_, ?_⟩
  · rintro before label after rfl
    have sized_before (i : Instr) (member : i ∈ before) := sized_instrs i (by simp [member])
    have moved := span_plain sized_before
    refine ⟨_, (labelOffset?_eq_some in_short).mpr ⟨before, after ++ withBlobs [] blobs, ?_, rfl⟩,
      (labelOffset?_eq_some in_long).mpr ⟨before, after ++ withBlobs [] blobs, ?_, moved.symm⟩, ?_⟩
    · simp [withBlobs]
    · simp [withBlobs]
    have long_rest := rendered_from (fun i member => sized_plain i (by simp [member])) long_rendered
    have short_rest := rendered_from sized_before short_rendered
    rw [moved] at long_rest
    exact shrinks_of_rendered (fun i member => no_data i (List.mem_append_right _ member))
      (fun i member => sized_instrs i (List.mem_append_right _ member)) long_rest short_rest
  · intro id member
    obtain ⟨⟨key, bytes⟩, blob_member, is_id⟩ := List.mem_map.mp member
    obtain rfl : key = id := is_id
    obtain ⟨before, after, rfl⟩ := List.append_of_mem blob_member
    have split : withBlobs instrs (before ++ (key, bytes) :: after)
        = (instrs ++ withBlobs [] before) ++ .data key bytes :: withBlobs
          [] after := by simp [withBlobs]
    refine ⟨_, (constantOffset?_eq_some in_short no_data distinct).mpr ⟨_, _, _, split, rfl⟩,
      (constantOffset?_eq_some in_long no_data distinct).mpr ⟨_, _, _, split, ?_⟩⟩
    rw [span_append, span_append, span_blobs, span_blobs, span_plain sized_instrs,
      Nat.add_right_comm]

theorem optimised_image_shrinks_countdown : ∃ long short ds es offset,
      (⟨⟨#[8], 0⟩, false⟩ : Assembler).assemble countdown [(⟨3⟩, [7, 9])] = .ok long
      ∧ (⟨⟨#[8], 0⟩, true⟩ : Assembler).assemble countdown [(⟨3⟩, [7, 9])] = .ok short
      ∧ Shrinks ⟨#[8], 0⟩ long short 0 countdown ds es
      ∧ short.constantOffset? ⟨3⟩ = some offset ∧ long.constantOffset? ⟨3⟩ = some (offset + 9) := by
  obtain ⟨_, shrinks⟩ :=
    @optimised_image_shrinks ⟨#[8], 0⟩ countdown [(⟨3⟩, [7, 9])] (by decide) (by decide)
  obtain ⟨code, ds, code', es, _, _, _, _, deletes, _, constants⟩ := shrinks _ _ rfl rfl
  obtain ⟨offset, in_short, in_long⟩ := constants ⟨3⟩ (by decide)
  exact ⟨_, _, ds, es, offset, rfl, rfl, deletes, in_short, in_long⟩

end Assembler

end RegisterBackend
