import RegisterBackend.Image.Listing
import RegisterBackend.Proofs.RoundTrip

/-!
Decoding of bytes that no assembler wrote. What is read is what would be written, so the decoder
goes through complete encodings one after the other.
-/
namespace RegisterBackend

open List Opcode

variable {bytes rest : List UInt8} {d : Decoded} {kind : OperandKind} {kinds : List OperandKind}

theorem encodeAs_of_readOperand {operand : Operand}
    (read : readOperand kind bytes = some (operand, rest)) :
    ∃ written, operand.encodeAs? kind = some written ∧ bytes = written ++ rest := by
  unfold readOperand at read
  split at read <;> simp only [Option.some.injEq, Prod.mk.injEq, reduceCtorEq] at read
  all_goals obtain ⟨rfl, rfl⟩ := read
  all_goals simp [Operand.encodeAs?, OperandKind.isRegister, wordBytes_ofBytes]

theorem length_lt_of_readOperand (read : readOperand kind bytes = none) :
    bytes.length < kind.size := by
  unfold readOperand at read
  split at read
  case h_2 incomplete =>
    rcases bytes with _ | ⟨a, _ | ⟨b, _ | ⟨c, _ | ⟨d, _ | ⟨e, _ | ⟨f, _ | ⟨g, _ | ⟨h, rest⟩⟩⟩⟩⟩⟩⟩⟩
    case cons.cons.cons.cons.cons.cons.cons.cons =>
      exact absurd rfl (incomplete a b c d e f g h rest)
    all_goals simp [OperandKind.size]
  case h_7 => cases kind <;> simp_all [OperandKind.size]
  all_goals cases read

theorem encodeOperands_of_readOperands (op : Opcode) {operands : List Operand}
    (read : readOperands kinds bytes = some (operands, rest)) : kinds.length = operands.length
      ∧ ∃ written, encodeOperands op kinds operands = .ok written ∧ bytes = written ++ rest := by
  induction kinds generalizing bytes operands with
  | nil =>
    cases read
    exact ⟨rfl, [], rfl, rfl⟩
  | cons kind kinds ih =>
    simp only [readOperands] at read
    split at read
    · cases read
    · next first middle first_read =>
      split at read
      · cases read
      · next others last others_read =>
        cases read
        obtain ⟨front, first_written, rfl⟩ := encodeAs_of_readOperand first_read
        obtain ⟨count, back, others_written, rfl⟩ := ih others_read
        refine ⟨by simp [count], front ++ back, ?_, (append_assoc _ _ _).symm⟩
        simp [encodeOperands, first_written, others_written]

theorem length_lt_of_readOperands (read : readOperands kinds bytes = none) :
    bytes.length < (kinds.map OperandKind.size).foldr (· + ·) 0 := by
  induction kinds generalizing bytes with
  | nil => cases read
  | cons kind kinds ih =>
    simp only [readOperands] at read
    rw [map_cons, foldr_cons]
    split at read
    · next unread =>
      have short := length_lt_of_readOperand unread
      omega
    · next first middle first_read =>
      obtain ⟨front, first_written, rfl⟩ := encodeAs_of_readOperand first_read
      split at read
      · next unread =>
        have short := ih unread
        rw [length_append, length_encodeAs first_written]
        omega
      · cases read

def IsEncoding (bytes : List UInt8) : Prop := ∃ op operands, Opcode.encode op operands = .ok bytes

/-- The instructions lie one after the other from `offset` on, and the bytes are theirs. -/
inductive Tiles : (offset : Nat) → List Decoded → List UInt8 → Prop
  | nil (offset : Nat) : Tiles offset [] []
  | cons {d : Decoded} {found : List Decoded} {bytes rest : List UInt8}
      (encoded : d.op.encode d.operands = .ok bytes) (others : Tiles d.next found rest) :
      Tiles d.offset (d :: found) (bytes ++ rest)

/-- What the error says of the bytes from `start` on is so. -/
def DecodeError.Holds (bytes : List UInt8) (start : Nat) : DecodeError → Prop
  | .unknownOpcode offset byte =>
    offset = start ∧ bytes[start]? = some byte ∧ ∀ op : Opcode, op.toByte ≠ byte
  | .truncated offset op =>
    offset = start ∧ bytes[start]? = some op.toByte ∧ bytes.length < start + op.size

theorem toByte_of_ofByte? {b : UInt8} {op : Opcode} (known : Opcode.ofByte? b = some op) :
    op.toByte = b := by
  simpa using find?_some known

theorem decodeFrom_cases (before bytes : List UInt8) : bytes = []
    ∨ (∃ op operands written rest, Opcode.encode op operands = .ok written
      ∧ bytes = written ++ rest)
    ∨ ∃ e : DecodeError, decodeFrom before.length bytes = ([], some e)
      ∧ e.Holds (before ++ bytes) before.length := by
  cases bytes with
  | nil => exact .inl rfl
  | cons b rest =>
    refine .inr ?_
    cases known : Opcode.ofByte? b with
    | none =>
      refine .inr ⟨.unknownOpcode before.length b, by rw [decodeFrom]; simp [known],
        rfl, by simp, ?_⟩
      rintro op rfl
      cases (ofByte?_toByte op).symm.trans known
    | some op =>
      obtain rfl := toByte_of_ofByte? known
      cases read : readOperands op.operands rest with
      | none =>
        have short := length_lt_of_readOperands read
        refine .inr ⟨.truncated before.length op, ?_, rfl, by simp, ?_⟩
        · rw [decodeFrom]
          simp only [known]
          split <;> simp_all
        · rw [length_append, length_cons, Opcode.size]
          omega
      | some found =>
        obtain ⟨operands, rest'⟩ := found
        obtain ⟨count, written, encoded, rfl⟩ := encodeOperands_of_readOperands op read
        exact .inl ⟨op, operands, op.toByte :: written, rest',
          encode_ok_iff.mpr ⟨count, written, encoded, rfl⟩, rfl⟩

namespace Tiles
variable {offset : Nat} {found : List Decoded}

section
variable (tiles : Tiles offset found bytes)
include tiles

theorem length_eq : bytes.length = (found.map Decoded.size).sum := by
  induction tiles with
  | nil => rfl
  | cons encoded _ ih =>
    rw [length_append, length_encode encoded, ih, map_cons, sum_cons, Decoded.size]

theorem length_le : found.length ≤ bytes.length := by
  rw [tiles.length_eq, ← length_map Decoded.size]
  refine length_le_sum_of_one_le _ fun size member => ?_
  obtain ⟨d, _, rfl⟩ := mem_map.mp member
  exact Assembler.size_pos d.op

theorem decodeFrom_eq : decodeFrom offset bytes = (found, none) := by
  induction tiles with
  | nil => simp [decodeFrom]
  | @cons d found _ rest encoded _ ih =>
    have later : decodeFrom (d.offset + d.op.size) rest = (found, none) := ih
    rw [decodeFrom_encode encoded, later]

theorem head_offset : ∀ d ∈ found.head?, d.offset = offset := by
  cases tiles <;> simp

theorem isChain : found.IsChain fun d d' => d'.offset = d.next := by
  induction tiles with
  | nil => exact .nil
  | cons _ others ih => exact isChain_cons.mpr ⟨others.head_offset, ih⟩

end

theorem covers {d : Decoded} (before rest : List UInt8) (tiles : Tiles before.length found bytes)
    (member : d ∈ found) : d.next ≤ before.length + bytes.length ∧ d.op.encode d.operands
      = .ok (((before ++ bytes ++ rest).drop d.offset).take d.size) := by
  generalize start : before.length = offset at tiles
  induction tiles generalizing before with
  | nil => cases member
  | @cons first found front back encoded others ih =>
    have length : front.length = first.size := length_encode encoded
    rcases mem_cons.mp member with rfl | later
    · rw [Decoded.next, ← length, ← start, length_append, append_assoc, drop_left,
        append_assoc, take_left]
      exact ⟨by omega, encoded⟩
    · have inside :=
        @ih (before ++ front) later (by rw [length_append, length, start, Decoded.next])
      rw [show first.next = first.offset + front.length by rw [length, Decoded.next], Nat.add_assoc]
        at inside
      rwa [length_append, ← append_assoc]

theorem pieces (tiles : Tiles offset found bytes) :
    ∃ pieces : List (List UInt8), (∀ piece ∈ pieces, IsEncoding piece)
      ∧ bytes = pieces.flatten := by
  induction tiles with
  | nil => exact ⟨[], by simp, rfl⟩
  | cons encoded _ ih =>
    obtain ⟨pieces, encodings, rfl⟩ := ih
    exact ⟨_ :: pieces, forall_mem_cons.mpr ⟨⟨_, _, encoded⟩, encodings⟩, rfl⟩

end Tiles

theorem exists_tiles {pieces : List (List UInt8)} (encodings : ∀ piece ∈ pieces, IsEncoding piece)
    (offset : Nat) : ∃ found, Tiles offset found pieces.flatten := by
  induction pieces generalizing offset with
  | nil => exact ⟨[], .nil offset⟩
  | cons piece pieces ih =>
    obtain ⟨⟨op, operands, encoded⟩, later⟩ := forall_mem_cons.mp encodings
    obtain ⟨found, tiles⟩ := ih later (offset + op.size)
    exact ⟨_, .cons (d := ⟨offset, op, operands⟩) encoded tiles⟩

theorem decodeFrom_tiles (before bytes : List UInt8) : ∃ found covered rest, bytes = covered ++ rest
    ∧ Tiles before.length found covered
    ∧ ((rest = [] ∧ decodeFrom before.length bytes = (found, none))
      ∨ ∃ e : DecodeError, decodeFrom before.length bytes = (found, some e)
        ∧ e.Holds (before ++ bytes) (before.length + covered.length)) := by
  induction size : bytes.length using Nat.strong_induction_on generalizing before bytes with
  | _ n ih =>
    subst size
    rcases decodeFrom_cases before bytes with rfl | ⟨op, operands, written, rest, encoded, rfl⟩
        | ⟨e, decoded, holds⟩
    · exact ⟨[], [], [], rfl, .nil _, .inl ⟨rfl, by simp [decodeFrom]⟩⟩
    · have length := length_encode encoded
      have positive := Assembler.size_pos op
      obtain ⟨found, covered, left, rfl, tiles, ended⟩ :=
        ih rest.length (by rw [length_append]; omega) (before ++ written) rest rfl
      rw [length_append, length] at tiles ended
      refine ⟨_, written ++ covered, left, by simp,
        .cons (d := ⟨before.length, op, operands⟩) encoded tiles, ?_⟩
      rw [decodeFrom_encode encoded]
      rcases ended with ⟨rfl, later⟩ | ⟨e, later, holds⟩
      · exact .inl ⟨rfl, by rw [later]⟩
      · refine .inr ⟨e, by rw [later], ?_⟩
        rwa [length_append, length, ← Nat.add_assoc, ← append_assoc]
    · exact ⟨[], [], bytes, rfl, .nil _, .inr ⟨e, decoded, holds⟩⟩

/-- Decoding is exact: the instructions found tile the bytes that count, each is written back to
the bytes it covers, and unless all bytes are instructions the error is that of the first place
where none is. -/
theorem decoding_exact (code : List UInt8) (limit : Nat) : let n := decodeEnd code limit
    let bytes := code.take n
    let found := (decode code limit).1
    (∀ code', code'.take n = bytes → decode code' n = decode code limit)
      ∧ found.length ≤ n ∧ (∀ d ∈ found.head?, d.offset = 0)
      ∧ found.IsChain (fun d d' => d'.offset = d.next)
      ∧ (∀ d ∈ found, d.next ≤ n
        ∧ d.op.encode d.operands = .ok ((bytes.drop d.offset).take d.size))
      ∧ ((∃ listing, disassemble code limit = .ok listing)
        ↔ ∃ pieces : List (List UInt8), (∀ piece ∈ pieces, IsEncoding piece)
          ∧ bytes = pieces.flatten)
      ∧ (∀ listing, disassemble code limit = .ok listing →
        listing = found ∧ (found.map Decoded.size).sum = n)
      ∧ ∀ e, disassemble code limit = .error e →
        (decode code limit).2 = some e ∧ e.Holds bytes (found.map Decoded.size).sum := by
  intro n bytes found
  have is_bytes : code.take limit = bytes := List.take_eq_take_min
  have length : bytes.length = n := by simp [bytes, n, decodeEnd]
  obtain ⟨listed, covered, rest, split, tiles, ended⟩ := decodeFrom_tiles [] bytes
  simp only [List.length_nil, List.nil_append, Nat.zero_add] at tiles ended
  have decoded : decode code limit = decodeFrom 0 bytes := by rw [decode, is_bytes]
  obtain rfl : found = listed := by
    rcases ended with ⟨_, ended⟩ | ⟨_, ended, _⟩ <;> exact congrArg Prod.fst (decoded.trans ended)
  have inside : covered.length ≤ n := by
    rw [← length, split, List.length_append]
    exact Nat.le_add_right _ _
  refine ⟨fun code' same => by rw [decode, same, decoded], tiles.length_le.trans inside,
    tiles.head_offset, tiles.isChain, fun d member => ?_, ?_, fun listing listed => ?_,
      fun e failed => ?_⟩
  · obtain ⟨fits, encoded⟩ := Tiles.covers [] rest tiles member
    rw [List.nil_append, ← split] at encoded
    rw [List.length_nil, Nat.zero_add] at fits
    exact ⟨fits.trans inside, encoded⟩
  · constructor
    · rintro ⟨listing, listed⟩
      rcases ended with ⟨rfl, ended⟩ | ⟨e, ended, _⟩
      · rw [split, List.append_nil]
        exact tiles.pieces
      · rw [disassemble, decoded, ended] at listed
        cases listed
    · rintro ⟨pieces, encodings, whole⟩
      obtain ⟨listing, tiling⟩ := exists_tiles encodings 0
      exact ⟨listing, by rw [disassemble, decoded, whole, tiling.decodeFrom_eq]⟩
  · rcases ended with
      ⟨rfl, ended⟩ | ⟨e, ended, _⟩ <;> rw [disassemble, decoded, ended] at listed <;>
      cases listed
    refine ⟨rfl, ?_⟩
    rw [← tiles.length_eq, ← length, split, List.append_nil]
  · rcases ended with
      ⟨_, ended⟩ | ⟨e, ended, holds⟩ <;> rw [disassemble, decoded, ended] at failed <;>
      cases failed
    refine ⟨by rw [decoded, ended], ?_⟩
    rwa [← tiles.length_eq]

theorem exists_encode_of_mem_decode {code : List UInt8} {limit : Nat}
    (member : d ∈ (decode code limit).1) : ∃ written, d.op.encode d.operands = .ok written := by
  obtain ⟨found, covered, rest, _, tiles, ended⟩ := decodeFrom_tiles [] (code.take limit)
  obtain rfl : (decode code limit).1 = found := by
    rcases ended with ⟨_, ended⟩ | ⟨_, ended, _⟩ <;> exact congrArg Prod.fst ended
  exact ⟨_, (Tiles.covers [] rest tiles member).2⟩

theorem exists_word_of_encodeAs {operand : Operand}
    (encoded : operand.encodeAs? .word = some bytes) : ∃ w, operand = .word w := by
  cases operand <;> simp_all [Operand.encodeAs?, OperandKind.isRegister]

theorem getLast?_of_encodeOperands {op : Opcode} {operands : List Operand}
    (count : kinds.length = operands.length) (last : kinds.getLast? = some .word)
    (encoded : encodeOperands op kinds operands = .ok bytes) :
    ∃ w, operands.getLast? = some (.word w) := by
  induction kinds generalizing operands bytes with
  | nil => cases last
  | cons kind kinds ih =>
    cases operands with
    | nil => cases count
    | cons operand operands =>
      obtain ⟨_, _, first, others, -⟩ := encodeOperands_cons encoded
      cases kinds with
      | nil =>
        obtain rfl : operands = [] := length_eq_zero_iff.mp (by simpa using count.symm)
        obtain rfl : kind = .word := by simpa using last
        exact (exists_word_of_encodeAs first).imp fun _ is_word => congrArg some is_word
      | cons next kinds =>
        obtain ⟨w, is_last⟩ := ih (by simpa using count) (by simpa using last) others
        exact ⟨w, by rw [getLast?_cons, is_last]; rfl⟩

theorem exists_displacement (relative : d.op.isRelative = true)
    (encoded : d.op.encode d.operands = .ok bytes) : ∃ w, d.operands.getLast? = some (.word w) := by
  obtain ⟨count, _, written, _⟩ := encode_ok_iff.mp encoded
  refine getLast?_of_encodeOperands count ?_ written
  generalize d.op = op at relative
  cases op <;> first | rfl | cases relative

theorem branchTarget_eq {n : Int} (sum : d.branchSum? = some n) (low : -2 ^ 63 ≤ n) :
    d.branchTarget = if 2 ^ 63 ≤ n then .error .overflow
      else .ok (if n < 0 then none else some n.toNat) := by
  rw [Decoded.branchTarget, sum]
  by_cases beyond : 2 ^ 63 ≤ n
  · have differs : (BitVec.ofInt 64 n).toInt ≠ n := fun same => by
      have high := (BitVec.ofInt 64 n).toInt_lt
      rw [same] at high
      omega
    rw [if_pos beyond]
    exact if_pos differs
  · have same : (BitVec.ofInt 64 n).toInt = n := toInt_ofInt_of_lt low (by omega)
    rw [if_neg beyond]
    exact if_neg (not_not.mpr same)

theorem lines_stopped (l : Listing) (code : List UInt8) (found : List Decoded) :
    (l.lines code found).2.isSome = true ↔ ∃ d ∈ found, ∃ fault, d.branchTarget = .error fault := by
  induction found with
  | nil => simp [Listing.lines]
  | cons d rest ih =>
    rw [Listing.lines, Listing.line, Decoded.text]
    cases target : d.branchTarget with
    | error fault => simp [Except.map, target]
    | ok target => simpa [Except.map, target] using ih

theorem exitCode_run_eq (l : Listing) (code : List UInt8) : (l.run (.ok code)).exitCode = 101
    ↔ ∃ d ∈ (decode code (l.limit.getD code.length)).1, ∃ fault, d.branchTarget = .error fault := by
  rw [← lines_stopped l code, Listing.run]
  generalize decode code (l.limit.getD code.length) = decoded
  obtain ⟨found, stopped⟩ := decoded
  cases fault : (l.lines code found).2 <;> cases stopped <;> simp [fault]

/-- A relative jump leads where its displacement says, unless that is beyond the signed words. Such
code is never assembled, but it can be read, and then the instruction has no target to show and its
listing fails there. -/
theorem jumps_exact (code : List UInt8) : (∀ limit, ∀ d ∈ (decode code limit).1,
      (d.op.isRelative = false → d.branchTarget = .ok none)
      ∧ (d.op.isRelative = true → ∃ w : Word, d.operands.getLast? = some (.word w)
        ∧ (d.branchTarget = .error .overflow ↔ 2 ^ 63 ≤ d.offset + d.size + w.toInt)
        ∧ (d.branchTarget = .ok none ↔ d.offset + d.size + w.toInt < 0)
        ∧ ∀ t : Nat, d.branchTarget = .ok (some t)
          ↔ d.offset + d.size + w.toInt = t ∧ t < 2 ^ 63))
    ∧ ∀ l : Listing, (l.run (.ok code)).exitCode = 101
      ↔ ∃ d ∈ (decode code (l.limit.getD code.length)).1, ∃ fault,
      d.branchTarget = .error fault := by
  refine ⟨fun limit d member => ⟨fun absolute => ?_, fun relative => ?_⟩,
    fun l => exitCode_run_eq l code⟩
  · have none : d.branchSum? = none := by simp [Decoded.branchSum?, absolute]
    rw [Decoded.branchTarget, none]
  · obtain ⟨_, encoded⟩ := exists_encode_of_mem_decode member
    obtain ⟨w, last⟩ := exists_displacement relative encoded
    have sum : d.branchSum? = some (d.offset + d.size + w.toInt) := by
      simp [Decoded.branchSum?, relative, last, Decoded.next]
    have low : -2 ^ 63 ≤ w.toInt := BitVec.le_toInt w
    have target := branchTarget_eq sum (by omega)
    refine ⟨w, last, ?_⟩
    rw [target]
    generalize (d.offset : Int) + d.size + w.toInt = n
    refine ⟨?_, ?_, fun t => ?_⟩ <;> split <;> simp <;> omega

end RegisterBackend
