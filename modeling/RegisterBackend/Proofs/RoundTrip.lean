import RegisterBackend.Image.Decoding
import RegisterBackend.Proofs.Assembly

/-!
Disassembly undoes assembly. Each operand is read back from the bytes it was written to, and no
limit falls inside an instruction.
-/
namespace RegisterBackend

open List Instr

variable {blobs : List (ConstantId × List UInt8)} {bytes : List UInt8} {d : Decoded} {i : Instr}
  {instrs program : List Instr} {label : LabelId} {offset pos size : Nat} {op : Opcode}
  {operands : List Operand} {parts : List (List UInt8 × List Marker)} {r : Resolution} {s : Symbols}

theorem readOperand_encodeAs {operand : Operand} {kind : OperandKind}
    (encoded : operand.encodeAs? kind = some bytes) (rest : List UInt8) :
    readOperand kind (bytes ++ rest) = some (operand, rest) := by
  cases operand with
  | register id =>
    obtain ⟨fits, ⟨⟩⟩ := Option.ite_none_right_eq_some.mp encoded
    cases kind <;> simp_all [OperandKind.isRegister, readOperand]
  | byte value =>
    obtain ⟨rfl, ⟨⟩⟩ := Option.ite_none_right_eq_some.mp encoded
    rfl
  | word value =>
    obtain ⟨rfl, ⟨⟩⟩ := Option.ite_none_right_eq_some.mp encoded
    obtain ⟨a, b, c, d, e, f, g, h, digits⟩ :
        ∃ a b c d e f g h, Word.bytes value = [a, b, c, d, e, f, g, h] :=
          ⟨_, _, _, _, _, _, _, _, rfl⟩
    have read : readOperand .word (Word.bytes value ++ rest)
        = some (.word (Word.ofBytes (Word.bytes value)), rest) := by
      rw [digits]
      rfl
    rw [read, ofBytes_wordBytes]

theorem readOperands_encodeOperands {kinds : List OperandKind}
    (count : kinds.length = operands.length)
    (encoded : encodeOperands op kinds operands = .ok bytes) (rest : List UInt8) :
    readOperands kinds (bytes ++ rest) = some (operands, rest) := by
  induction kinds generalizing operands bytes with
  | nil =>
    obtain rfl := eq_nil_of_length_eq_zero count.symm
    cases encoded
    rfl
  | cons kind kinds ih =>
    cases operands with
    | nil => cases count
    | cons operand operands =>
      obtain ⟨first, others, first_encoded, others_encoded, rfl⟩ := encodeOperands_cons encoded
      rw [append_assoc]
      simp only [readOperands, readOperand_encodeAs first_encoded,
        ih (by simpa using count) others_encoded]

theorem ofByte?_toByte (op : Opcode) : Opcode.ofByte? op.toByte = some op := by
  cases op <;> rfl

theorem decodeFrom_encode (encoded : op.encode operands = .ok bytes) (offset : Nat)
    (rest : List UInt8) : decodeFrom offset
    (bytes ++ rest) = (⟨offset, op, operands⟩ :: (decodeFrom (offset + op.size) rest).1,
      (decodeFrom (offset + op.size) rest).2) := by
  obtain ⟨count, written, rest_encoded, rfl⟩ := Opcode.encode_ok_iff.mp encoded
  have read := readOperands_encodeOperands count rest_encoded rest
  rw [cons_append, decodeFrom]
  simp only [ofByte?_toByte]
  split
  · next failed => simp [read] at failed
  · next others left found =>
    obtain ⟨rfl, rfl⟩ : operands = others ∧ rest = left := by simpa [read] using found
    rfl

theorem disassemble_code {code data : List UInt8} {found : List Decoded}
    (decoded : decodeFrom 0 code = (found, none)) :
    disassemble (code ++ data) code.length = .ok found := by
  rw [disassemble, decode, take_left, decoded]

def Instr.target? : Instr → Option LabelId
  | .jump target => some target
  | .jumpIf _ target _ => some target
  | .call target => some target
  | _ => none

def Assembler.emits (a : Assembler) (i : Instr) : Bool :=
  match i.opcode?, a.elides i with
  | some _, .ok false => true
  | _, _ => false

/-- What was decoded is the instruction with its fields resolved. -/
structure Resolution.Renders (r : Resolution) (i : Instr) (d : Decoded) : Prop where
  op : i.opcode? = some d.op
  operands : i.Shows r d.next d.operands

namespace Assembler
variable {a : Assembler}

theorem emits_iff (coded : i.opcode? = some op) (planned : a.sizeOf i = .ok size) :
    a.emits i = true ↔ size ≠ 0 := by
  obtain ⟨elided, is_elided, rfl⟩ := Except.map_ok_iff.mp planned
  have positive := size_pos op
  cases elided with
  | true => simp [emits, coded, is_elided]
  | false =>
    simp [emits, coded, is_elided, nominalSize_coded coded, positive.ne']

theorem not_emits_uncoded (uncoded : i.opcode? = none) : a.emits i = false := by
  simp [emits, uncoded]

theorem decodeFrom_written (sized : ∀ i ∈ program, ∃ size, a.sizeOf i = .ok size)
    (no_data : ∀ i ∈ program, i.blob? = none)
    (written : Forall₂ (fun p part => a.write s p = .ok part) (a.lay program pos) parts) :
    ∃ found, decodeFrom pos (parts.flatMap Prod.fst) = (found, none)
      ∧ Forall₂ (fun p d => d.offset = p.position ∧ (s.resolution a.layout).Renders p.instr d)
        ((a.lay program pos).filter fun p => a.emits p.instr) found := by
  induction program generalizing pos parts with
  | nil =>
    cases written
    exact ⟨[], by simp [decodeFrom], .nil⟩
  | cons i rest ih =>
    obtain ⟨size, planned⟩ := sized i (by simp)
    have measured : a.measure i = size := by simp [measure, planned]
    rw [lay, measured] at written ⊢
    cases written with
    | @cons _ part _ parts first others =>
      obtain ⟨found, decoded, rendered⟩ := ih (fun j member => sized j (by simp [member]))
        (fun j member => no_data j (by simp [member])) others
      cases coded : i.opcode? with
      | none =>
        have content : i.content = [] := content_of_blob? (no_data i (by simp))
        have empty : part.1 = [] := (write_uncoded coded first).trans content
        have nothing : size = 0 := by
          rw [← Except.ok.inj ((sizeOf_uncoded coded).symm.trans planned), content, length_nil]
        subst nothing
        refine ⟨found, by simpa [empty] using decoded, ?_⟩
        simpa [not_emits_uncoded coded] using rendered
      | some op =>
        rw [write_coded_ok_iff coded] at first
        split at first
        · next left_out =>
          simp only at left_out
          subst left_out first
          refine ⟨found, by simpa using decoded, ?_⟩
          have not_emitted : ¬a.emits i = true := by simp [emits_iff coded planned]
          simpa [not_emitted] using rendered
        · next kept =>
          obtain ⟨operands, bytes, shows, encoded, rfl⟩ := first
          have emitted : a.emits i = true := (emits_iff coded planned).mpr kept
          obtain rfl : size = op.size := (sizeOf_coded coded planned).resolve_left kept
          refine ⟨⟨pos, op, operands⟩ :: found, ?_, ?_⟩
          · rw [flatMap_cons, decodeFrom_encode encoded, decoded]
          · simp only [filter_cons, emitted, ↓reduceIte]
            exact .cons ⟨rfl, ⟨coded, shows⟩⟩ rendered

theorem length_written (sized : ∀ i ∈ program, ∃ size, a.sizeOf i = .ok size)
    (written : Forall₂ (fun p part => a.write s p = .ok part) (a.lay program pos) parts) :
    (parts.flatMap Prod.fst).length = a.span program := by
  induction program generalizing pos parts with
  | nil =>
    cases written
    rfl
  | cons i rest ih =>
    rw [lay] at written
    cases written with
    | cons first others =>
      have planned : a.sizeOf i = .ok (a.measure i) := by
        obtain ⟨size, is_size⟩ := sized i (by simp)
        simp [measure, is_size]
      rw [flatMap_cons, length_append, length_write planned first,
        ih (fun j member => sized j (by simp [member])) others, span_cons]

theorem written_blobs (written : Forall₂ (fun p part => a.write s p = .ok part)
      (a.lay (withBlobs [] blobs) pos) parts) :
    parts.flatMap Prod.fst = blobs.flatMap Prod.snd := by
  induction blobs generalizing pos parts with
  | nil =>
    cases written
    rfl
  | cons blob rest ih =>
    cases written with
    | cons first others =>
      rw [flatMap_cons, flatMap_cons, write_uncoded rfl first, ih others]
      rfl

theorem span_blobs (blobs : List (ConstantId × List UInt8)) :
    a.span (withBlobs [] blobs) = (blobs.flatMap Prod.snd).length := by
  induction blobs with
  | nil => rfl
  | cons blob rest ih =>
    have size : a.measure (.data blob.1 blob.2) = blob.2.length := by
      rw [measure, sizeOf_uncoded rfl]
      rfl
    rw [flatMap_cons, length_append, ← ih, ← size]
    exact span_cons _ _

theorem withBlobs_eq (instrs : List Instr) (blobs : List (ConstantId × List UInt8)) :
    withBlobs instrs blobs = instrs ++ withBlobs [] blobs := rfl

theorem blobs_withBlobs (no_data : ∀ i ∈ instrs, i.blob? = none) :
    (withBlobs instrs blobs).filterMap blob? = blobs.map Prod.fst := by
  rw [withBlobs_eq, filterMap_append, filterMap_eq_nil_iff.mpr no_data, nil_append,
    withBlobs, nil_append, filterMap_map]
  exact congrFun filterMap_eq_map blobs

end Assembler

theorem toInt_ofInt_of_lt {n : Int} (low : -2 ^ 63 ≤ n) (high : n < 2 ^ 63) :
    (BitVec.ofInt 64 n).toInt = n := by
  rw [BitVec.toInt_ofInt]
  exact Int.bmod_eq_of_le (by omega) (by omega)

theorem Resolution.Renders.target_placed (renders : r.Renders i d)
    (jumps : i.target? = some label) : ∃ offset, r.label label = some offset := by
  have named : CodeField.target label ∈ i.fields := by
    cases i <;> simp_all [target?, fields]
  obtain ⟨operand, resolved⟩ := exists_forall₂_iff.mp ⟨_, renders.operands⟩ _ named
  obtain ⟨offset, placed, _⟩ := Option.map_eq_some_iff.mp resolved
  exact ⟨offset, placed⟩

theorem Resolution.Renders.branchTarget (renders : r.Renders i d) (jumps : i.target? = some label)
    (placed : r.label label = some offset) (near : offset < 2 ^ 63) (next_near : d.next < 2 ^ 63) :
    d.branchTarget = .ok (some offset) := by
  have distance : (BitVec.ofInt 64 ((offset : Int) - d.next)).toInt = (offset : Int) - d.next :=
    toInt_ofInt_of_lt (by omega) (by omega)
  have exact : (BitVec.ofInt 64 (offset : Int)).toInt = offset :=
    toInt_ofInt_of_lt (by omega) (by omega)
  have reaches
      (last : d.operands.getLast? = some (.word (BitVec.ofInt 64 ((offset : Int) - d.next))))
      (relative : d.op.isRelative = true) : d.branchTarget = .ok (some offset) := by
    have sum : d.branchSum? = some (offset : Int) := by
      simp [Decoded.branchSum?, relative, last, distance]
    simp only [Decoded.branchTarget, sum, exact, ne_eq, not_true, ↓reduceIte]
    rw [if_neg (by omega), Int.toNat_natCast]
  obtain ⟨op, shows⟩ := renders
  cases i <;> simp only [target?, reduceCtorEq, Option.some.injEq] at jumps <;> subst jumps
  all_goals
    simp only [Instr.Shows, fields, CodeField.resolve, forall₂_cons_left_iff,
      forall₂_nil_left_iff, placed, Option.map_some, Option.some.injEq, exists_and_left,
      exists_eq_left] at shows
    simp only [opcode?, Option.some.injEq] at op
  case jump =>
    obtain ⟨_, rfl, operands⟩ := shows
    exact reaches (by simp [operands]) (by simp [← op, Opcode.isRelative])
  case jumpIf whenNonzero =>
    obtain ⟨_, rfl, _, ⟨_, rfl, rfl⟩, operands⟩ := shows
    exact reaches (by simp [operands]) (by cases whenNonzero <;> simp [← op, Opcode.isRelative])
  case call =>
    obtain ⟨_, rfl, operands⟩ := shows
    exact reaches (by simp [operands]) (by simp [← op, Opcode.isRelative])

theorem forall₂_append_split {α β : Type} {R : α → β → Prop} {xs ys : List α} {zs : List β}
    (related : Forall₂ R (xs ++ ys) zs) :
    ∃ front back, zs = front ++ back ∧ Forall₂ R xs front ∧ Forall₂ R ys back :=
  ⟨zs.take xs.length, zs.drop xs.length, (take_append_drop _ _).symm,
    (forall₂_take_append _ _ _ related.flip).flip, (forall₂_drop_append _ _ _ related.flip).flip⟩

namespace Assembler
variable {a : Assembler} {instrs : List Instr}
  {blobs : List (ConstantId × List UInt8)} {image : Image}

theorem image_parts (no_data : ∀ i ∈ instrs, i.blob? = none)
    (assembled : a.assemble instrs blobs = .ok image) :
    ∃ code found, image.code = code ++ blobs.flatMap Prod.snd ∧ code.length = a.span instrs
      ∧ decodeFrom 0 code = (found, none)
      ∧ Forall₂ (fun p d => d.offset = p.position ∧ (image.resolution a.layout).Renders p.instr d)
        ((a.lay instrs 0).filter fun p => a.emits p.instr) found := by
  obtain ⟨sized, distinct, parts, written, rfl⟩ := assemble_ok_iff.mp assembled
  rw [withBlobs_eq] at sized
  have sized_instrs (i : Instr) (member : i ∈ instrs) := sized i (by simp [member])
  nth_rewrite 2 [withBlobs_eq] at written
  rw [lay_append] at written
  obtain ⟨front, back, rfl, front_written, back_written⟩ := forall₂_append_split written
  obtain ⟨found, decoded, rendered⟩ := decodeFrom_written sized_instrs no_data front_written
  refine ⟨front.flatMap Prod.fst, found, ?_, length_written sized_instrs front_written,
    decoded, rendered⟩
  rw [flatMap_append, written_blobs back_written]

section
variable (assembled : a.assemble instrs blobs = .ok image)
include assembled

theorem size_image : image.size = a.span (withBlobs instrs blobs) := by
  obtain ⟨sized, _, parts, written, rfl⟩ := assemble_ok_iff.mp assembled
  exact length_written sized written

theorem labelOffset?_eq_some : image.labelOffset? label = some offset ↔
      ∃ before after, withBlobs instrs blobs = before ++ .label label :: after
        ∧ offset = a.span before := by
  obtain ⟨_, distinct, parts, _, rfl⟩ := assemble_ok_iff.mp assembled
  simpa only [Image.labelOffset?, Nat.zero_add] using @label_lay_eq_some label _ offset 0 a distinct

theorem constantOffset?_eq_some (no_data : ∀ i ∈ instrs, i.blob? = none)
    (distinct : (blobs.map Prod.fst).Nodup) {id : ConstantId} :
    image.constantOffset? id = some offset ↔
      ∃ before bytes after, withBlobs instrs blobs = before ++ .data id bytes :: after
        ∧ offset = a.span before := by
  obtain ⟨_, _, parts, _, rfl⟩ := assemble_ok_iff.mp assembled
  have blob_ids : ((withBlobs instrs blobs).filterMap blob?).Nodup := by
    rwa [blobs_withBlobs no_data]
  simpa only [Image.constantOffset?, Nat.zero_add] using
    @constant_lay_eq_some _ offset 0 a id blob_ids

theorem labelOffset?_le (placed : image.labelOffset? label = some offset) :
    offset ≤ image.size := by
  obtain ⟨before, after, split, rfl⟩ := (labelOffset?_eq_some assembled).mp placed
  rw [size_image assembled, split, span_append]
  exact Nat.le_add_right _ _

theorem next_le {p : Placed} (member : p ∈ a.lay instrs 0) (emitted : a.emits p.instr = true)
    (at_place : d.offset = p.position) (op : p.instr.opcode? = some d.op) :
    d.next ≤ image.size := by
  obtain ⟨sized, _⟩ := assemble_ok_iff.mp assembled
  obtain ⟨before, after, split, pos, size⟩ := mem_lay.mp member
  obtain ⟨planned, is_planned⟩ := sized p.instr (by rw [withBlobs_eq, split]; simp)
  have measured : a.measure p.instr = planned := by simp [measure, is_planned]
  have kept := (sizeOf_coded op is_planned).resolve_left ((emits_iff op is_planned).mp emitted)
  have inside : a.span (before ++ [p.instr]) ≤ a.span (withBlobs instrs blobs) := by
    rw [withBlobs_eq, split]
    simp only [span_append, span_cons, span_nil]
    omega
  rw [size_image assembled, Decoded.next, Decoded.size, at_place, pos, ← kept, ← measured]
  simpa using inside

end

theorem disassemble_assemble (no_data : ∀ i ∈ instrs, i.blob? = none)
    (distinct : (blobs.map Prod.fst).Nodup) (assembled : a.assemble instrs blobs = .ok image)
    (small : image.size < 2 ^ 63) :
    ∃ placed later found, a.place instrs blobs = .ok (placed ++ later)
      ∧ placed.map Placed.instr = instrs
      ∧ disassemble image.code (placed.map Placed.size).sum = .ok found
      ∧ List.Forall₂
      (fun p d => d.offset = p.position ∧ (image.resolution a.layout).Renders p.instr d
          ∧ ∀ label, p.instr.target? = some label →
            ∃ offset, image.labelOffset? label = some offset ∧ d.branchTarget = .ok (some offset))
        (placed.filter fun p => a.emits p.instr) found
      ∧ image.code.drop (placed.map Placed.size).sum = blobs.flatMap Prod.snd
      ∧ ∀ before id bytes after, blobs = before ++ (id, bytes) :: after →
        image.constantOffset? id
          = some ((placed.map Placed.size).sum + (before.flatMap Prod.snd).length) := by
  obtain ⟨code, found, is_code, length, decoded, rendered⟩ := image_parts no_data assembled
  obtain ⟨sized, labels, _⟩ := assemble_ok_iff.mp assembled
  refine ⟨a.lay instrs 0, a.lay (withBlobs [] blobs) (0 + a.span instrs), found, ?_,
    map_instr_lay _ _, ?_⟩
  · rw [place, ← lay_append, ← withBlobs_eq]
    exact placeFrom_ok_iff.mpr ⟨sized, labels, by simp, rfl⟩
  rw [map_size_lay, ← length, is_code]
  refine ⟨disassemble_code decoded, ?_, List.drop_left, ?_⟩
  · have members : ∀ p ∈ (a.lay instrs 0).filter fun p => a.emits p.instr,
        p ∈ a.lay instrs 0 ∧ a.emits p.instr = true := fun p member => List.mem_filter.mp member
    refine ((List.forall₂_and_left _ _).mpr ⟨members, rendered⟩).imp ?_
    rintro p d ⟨⟨member, emitted⟩, at_place, renders⟩
    refine ⟨at_place, renders, fun label jumps => ?_⟩
    obtain ⟨offset, placed⟩ := renders.target_placed jumps
    have near := labelOffset?_le assembled placed
    have next_near := next_le assembled member emitted at_place renders.op
    exact ⟨offset, placed, renders.branchTarget jumps placed (by omega) (by omega)⟩
  · rintro before id bytes after rfl
    refine (constantOffset?_eq_some assembled no_data distinct).mpr
      ⟨instrs ++ withBlobs [] before, bytes, withBlobs [] after, ?_, ?_⟩
    · simp [withBlobs]
    · rw [span_append, span_blobs, length]

/-- A loop whose frame has just the size of a return address, so that entering it is left out. -/
def countdown : List Instr :=
  [.label ⟨0⟩, .stackAdjust (.enter ⟨0⟩), .aluImm .sub (.int 0) (.value 1),
    .jumpIf (.int 0) ⟨0⟩ true, .movImm (.int 1) (.constantAddress ⟨3⟩), .ret]

theorem disassemble_assemble_countdown :
    ∃ image found, (⟨⟨#[8], 0⟩, true⟩ : Assembler).assemble countdown [(⟨3⟩, [7, 9])] = .ok image
      ∧ disassemble image.code 31 = .ok found ∧ found.length = 4
      ∧ image.code.drop 31 = [7, 9] ∧ image.constantOffset? ⟨3⟩ = some 31 := by
  obtain ⟨placed, later, found, planned, instrs, decoded, rendered, blobs, constants⟩ :=
    @disassemble_assemble ⟨⟨#[8], 0⟩, true⟩ countdown [(⟨3⟩, [7, 9])] _
      (by decide) (by decide) rfl (by decide)
  have length : placed.length = 6 := by simpa [countdown] using congrArg List.length instrs
  have front : placed = (placed ++ later).take 6 := by rw [← length, List.take_left]
  rw [← Except.ok.inj planned] at front
  have total : (placed.map Placed.size).sum = 31 := by rw [front]; rfl
  rw [total] at decoded blobs constants
  refine ⟨_, found, rfl, decoded, ?_, blobs, constants [] _ _ [] rfl⟩
  rw [← rendered.length_eq, front]
  rfl

end Assembler

end RegisterBackend
