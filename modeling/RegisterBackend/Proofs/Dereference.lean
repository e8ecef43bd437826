import RegisterBackend.Proofs.Arithmetic
import RegisterBackend.Proofs.Calling

/-!
Reading objects that are wider than a register. A loop copies the object word by word into a slot
of its own; its two registers may first have to be emptied. What is copied is the whole object, and
besides the slot only memory changes where registers were saved.
-/
namespace RegisterBackend

open Gen Context

variable {hw : Hardware} {p : Placement} {content : ValueId → Content} {c c' : Context}
  {s : MachineState} {slot : StackSlot} {cell : Cell} {ptr chunk : Register} {u : Unit} {w : Word}

theorem Context.Hands.whole {size : Nat} (hands : c.Hands size (.stack slot) c') :
    ∃ cell, (Position.stack slot).cell? = some cell ∧ c.extent cell.area ≤ cell.offset
      ∧ cell.Inside (alignUp (max size 1) wordSize) c'.extent
      ∧ alignUp (max size 1) wordSize ≤ maxFrameSize := by
  have filled : max size 1 ≤ alignUp (max size 1) wordSize := le_alignUp _ (by decide)
  cases hands with
  | @slot frame offset current known fits =>
    refine ⟨⟨.frame frame, offset⟩, rfl, by simp [extent, known], ?_, by omega⟩
    simp only [Cell.Inside, extent, Frames.size?_withSize known, ↓reduceIte, Option.getD_some]
    omega

theorem Placement.slot_advanced (is_cell : (Position.stack slot).cell? = some cell) (n : Nat) :
    p.slot (slot.advanced n) = p.address cell + BitVec.ofNat 64 n := by
  obtain ⟨base, offset⟩ := slot
  cases base <;> cases is_cell
  simp [StackSlot.advanced, slot, address, Placement.base, BitVec.ofNat_add, BitVec.add_assoc]

theorem Hardware.deposit_fetch (hw : Hardware) (m : Memory) (a : Word) :
    hw.deposit .int (hw.fetch .int m a 8) 8 = m.bytes a 8 := by
  simp only [deposit, fetch, Memory.word]
  rw [wordBytes_ofBytes (Memory.length_bytes ..), List.take_of_length_le
    (Memory.length_bytes ..).le]

/-- The bytes of a slot from one offset to another. -/
def Cell.Spans (p : Placement) (cell : Cell) (start stop : Nat) (a : Word) : Prop :=
  ∃ j, start ≤ j ∧ j < stop ∧ a = p.address cell + BitVec.ofNat 64 j

/-- What a part of the loop does: registers other than its two stay as they are, and so does memory
outside the part of the slot, which receives the bytes from the same part of the object. -/
structure CopiesPart (p : Placement) (cell : Cell) (ptr chunk : Register) (w : Word)
    (start stop : Nat) (s s' : MachineState) : Prop where
  registers : ∀ {q}, q ≠ ptr → q ≠ chunk → s'.registers q = s.registers q
  outside : ∀ {a}, ¬cell.Spans p start stop a → s'.memory a = s.memory a
  inside : ∀ {j}, start ≤ j → j < stop → ¬cell.Spans p start stop (w + BitVec.ofNat 64 j) →
    s'.memory (p.address cell + BitVec.ofNat 64 j) = s.memory (w + BitVec.ofNat 64 j)

theorem CopiesPart.trans {start middle stop : Nat} {s1 s' : MachineState} (small : stop ≤ 2 ^ 64)
    (first_le : start ≤ middle) (second_le : middle ≤ stop)
    (first : CopiesPart p cell ptr chunk w start middle s s1)
    (second : CopiesPart p cell ptr chunk w middle stop s1 s') :
    CopiesPart p cell ptr chunk w start stop s s' := by
  have early {a : Word} : cell.Spans p start middle a → cell.Spans p start stop a :=
    fun ⟨j, above, below, same⟩ => ⟨j, above, below.trans_le second_le, same⟩
  have late {a : Word} : cell.Spans p middle stop a → cell.Spans p start stop a :=
    fun ⟨j, above, below, same⟩ => ⟨j, first_le.trans above, below, same⟩
  refine ⟨fun ne ne' => (second.registers ne ne').trans (first.registers ne ne'),
    fun outside => (second.outside fun spans => outside (late spans)).trans
      (first.outside fun spans => outside (early spans)), fun {j} above below outside => ?_⟩
  by_cases before : j < middle
  · rw [second.outside, first.inside above before fun spans => outside (early spans)]
    rintro ⟨k, after, bound, same⟩
    have := Word.offset_eq_of_add_eq (by omega) (by omega) same
    omega
  · rw [second.inside (by omega) below fun spans => outside (late spans), first.outside fun spans =>
      outside (early spans)]

/-- One word of the object goes into the slot. -/
theorem copyWord_copies (hw : Hardware) {done : Nat} {s1 : MachineState} (bank : chunk.bank = .int)
    (is_cell : (Position.stack slot).cell? = some cell) (memory : s1.memory = s.memory)
    (registers : ∀ {q}, q ≠ ptr → s1.registers q = s.registers q)
    (at_word : s1.registers ptr = w + BitVec.ofNat 64 (done * 8)) :
    ∃ s', Instr.executeAll hw p
    [.loadPtr chunk ptr 8, .storeStack chunk (slot.advanced (done * 8)) 8] s1 = some s'
      ∧ (ptr ≠ chunk → s'.registers ptr = s1.registers ptr)
      ∧ CopiesPart p cell ptr chunk w (done * 8) ((done + 1) * 8) s s' := by
  set source := w + BitVec.ofNat 64 (done * 8)
  have eight : (8 : UInt8).toNat = 8 := rfl
  have executed : Instr.executeAll hw p
      [.loadPtr chunk ptr 8, .storeStack chunk (slot.advanced (done * 8)) 8] s1
      = some ((s1.set chunk (hw.fetch .int s.memory source 8)).write
        (p.address cell + BitVec.ofNat 64 (done * 8))
        (s.memory.bytes source 8)) := by
    simp [Instr.execute, eight, bank, memory, at_word, Placement.slot_advanced is_cell,
      Hardware.deposit_fetch]
  refine ⟨_, executed, fun ne => if_neg ne, fun ne ne' => (if_neg ne').trans (registers ne),
    fun {a} outside => ?_, fun {j} above below _ => ?_⟩
  · refine (Memory.write_of_apart _ fun i small same =>
      outside ⟨done * 8 + i, by omega, ?_, ?_⟩).trans (congrFun memory a)
    · rw [Memory.length_bytes] at small
      omega
    · rw [same, BitVec.ofNat_add, BitVec.add_assoc]
  · obtain ⟨i, rfl⟩ := Nat.exists_eq_add_of_le above
    rw [BitVec.ofNat_add, ← BitVec.add_assoc, ← BitVec.add_assoc]
    refine (Memory.write_at _ _ _ (by rw [Memory.length_bytes]; omega) (by simp)).trans ?_
    simp [Memory.bytes, source]

theorem copyWords_copies {count done : Nat} (other : ptr ≠ chunk) (bank : chunk.bank = .int)
    (is_cell : (Position.stack slot).cell? = some cell) (small : (done + count) * 8 ≤ 2 ^ 64)
    (at_word : s.registers ptr = w + BitVec.ofNat 64 ((done - 1) * 8))
    (run : Runs (copyWords ptr chunk slot count done) c u c') :
    c' = { c with code := c'.code } ∧ ∃ s', Executes hw p c s c' s'
      ∧ CopiesPart p cell ptr chunk w (done * 8) ((done + count) * 8) s s' := by
  induction count generalizing done c s with
  | zero =>
    obtain ⟨_, rfl⟩ := runs_pure.mp run
    exact ⟨rfl, s, .of_code rfl, fun _ _ => rfl, fun _ => rfl, fun above below =>
      absurd above (by omega)⟩
  | succ count ih =>
    rw [copyWords, runs_ite_then] at run
    simp only [runs_bind, runs_emit] at run
    obtain ⟨_, c1, advanced, _, _, rfl, _, _, rfl, rest⟩ := run
    -- The pointer moves on from the second word.
    obtain ⟨context, s1, ran, memory, registers, at_word1⟩ : c1 = { c with code := c1.code }
      ∧ ∃ s1, Executes hw p c s c1 s1
        ∧ s1.memory = s.memory ∧ (∀ {q}, q ≠ ptr → s1.registers q = s.registers q)
        ∧ s1.registers ptr = w + BitVec.ofNat 64 (done * 8) := by
      obtain ⟨later, advanced⟩ | ⟨first, advanced⟩ := runs_ite.mp advanced
      · obtain rfl := runs_emit.mp advanced
        refine ⟨rfl, _, .pushed rfl, rfl, fun ne => if_neg ne, ?_⟩
        obtain ⟨k, rfl⟩ := Nat.exists_eq_add_of_lt later
        have further : (0 + k + 1) * 8 = k * 8 + 8 := by omega
        rw [further, BitVec.ofNat_add, ← BitVec.add_assoc]
        simp [AluOp.eval, Placement.imm, at_word]
      · obtain ⟨_, rfl⟩ := runs_pure.mp advanced
        obtain rfl : done = 0 := by omega
        exact ⟨rfl, s, .of_code rfl, rfl, fun _ => rfl, by simpa using at_word⟩
    obtain ⟨s2, ran2, kept, first⟩ :=
      copyWord_copies (p := p) hw bank is_cell memory registers at_word1
    have at_next : s2.registers ptr = w + BitVec.ofNat 64
        ((done + 1 - 1) * 8) := by simpa [kept other] using at_word1
    obtain ⟨context', s', ran', second⟩ := ih (by omega) at_next rest
    refine ⟨context'.trans (by rw [context]; rfl), s', ran.trans (.trans ⟨_, ?_, ran2⟩ ran'),
      first.trans small (by omega) (by omega) ?_⟩
    · simp [Context.pushed, wordSize]
    · rwa [Nat.add_right_comm] at second

theorem CopiesPart.holds {start stop : Nat} {s' : MachineState} {b : Books} {v : ValueId}
    {st : Standing} {place : Position} (part : CopiesPart p cell ptr chunk w start stop s s')
    (tracks : Tracks hw p content b s) (standing : b.standing v = some st)
    (at_place : st.position = some place) (empty : b.occupant ptr = none) (empty' : b.occupant chunk
      = none) (apart : ∀ {other i}, st.Owns place → place.cell? = some other → i < st.ty.size →
      ¬cell.Spans p start stop (p.address other + BitVec.ofNat 64 i)) :
      hw.Holds p s' st.ty place (content v) := by
  refine ⟨fun _ is_word => tracks.canonical standing (by simp [at_place]) is_word, ?_⟩
  have in_memory (memory : place.isRegister = false) :
      ∃ other, place.cell? = some other
        ∧ hw.read st.ty s'.memory (p.address other) = content v := by
    obtain ⟨other, is_cell, _⟩ := tracks.located standing (.inl ⟨at_place, memory⟩)
    refine ⟨other, is_cell, ?_⟩
    rw [← tracks.current standing (.inl ⟨at_place, memory⟩) is_cell]
    exact Hardware.read_congr fun i small =>
      part.outside (apart (.inl ⟨at_place, memory⟩) is_cell small)
  cases place with
  | register q =>
    have occupied := tracks.owned standing at_place
    have ne : q ≠ ptr := by
      rintro rfl
      cases empty.symm.trans occupied
    have ne' : q ≠ chunk := by
      rintro rfl
      cases empty'.symm.trans occupied
    exact (tracks.seated standing at_place).2.2.1.trans
      (congrArg Content.word (part.registers ne ne').symm)
  | _ => exact in_memory rfl

/-- No value is in the memory, or belongs into it. -/
def Zoning.clear (cell : Cell) (size : Nat) : Zoning where
  allows _ _ ty place := ∀ other, place.cell? = some other → other.Apart ty.size cell size
  fits extent := cell.Inside size extent
  fits_mono grows inside := inside.trans (grows _)
  mono _ apart := apart
  register other is_cell := by cases is_cell
  hands {c c' ty place} inside hands := by
    intro other is_cell
    obtain ⟨_, is_cell', beyond, _⟩ := hands.cell
    obtain rfl := Option.some.inj (is_cell.symm.trans is_cell')
    by_cases area : other.area = cell.area
    · rw [area] at beyond
      exact .inr (.inr (inside.trans beyond))
    · exact .inl area

theorem Context.Hands.clear {size count : Nat} {place : Position} (hands : c.Hands size place c')
    (tracks : Tracks hw p content c.books s) (beyond : c.extent cell.area ≤ cell.offset)
    (inside : cell.Inside count c'.extent) : (Zoning.clear cell count).Holds c' where
  fits := inside
  allowed {v value place} found here := by
    intro other is_cell
    have owned : value.standing.Owns place := by
      refine here.imp_left fun at_place => ⟨at_place, ?_⟩
      cases place with
      | register q => cases is_cell
      | _ => rfl
    obtain ⟨_, is_cell', within⟩ := tracks.located (standing_books (hands.values ▸ found)) owned
    obtain rfl := Option.some.inj (is_cell.symm.trans is_cell')
    by_cases area : other.area = cell.area
    · exact .inr (.inl (Nat.le_trans within (area ▸ beyond)))
    · exact .inl area

theorem Zoning.Holds.not_spans {count i : Nat} {v : ValueId} {value : Value}
    {place : Position} {other : Cell} (clear : (Zoning.clear cell count).Holds c)
    (tracks : Tracks hw p content c.books s) (separate : p.Separates c.extent)
    (found : c.values.get? v = some value) (owned : value.standing.Owns place)
    (is_cell : place.cell? = some other) (small : i < value.ty.size) :
    ¬cell.Spans p 0 count (p.address other + BitVec.ofNat 64 i) := by
  rintro ⟨j, _, below, meets⟩
  obtain ⟨_, is_cell', inside⟩ := tracks.located (standing_books found) owned
  obtain rfl := Option.some.inj (is_cell.symm.trans is_cell')
  have apart := clear.allowed found (owned.imp_left And.left) other is_cell
  have fits : cell.Inside count c.extent := clear.fits
  have inside : other.Inside value.ty.size c.extent := inside
  simp only [Cell.Inside] at fits inside
  rw [Placement.address_add, Placement.address_add] at meets
  obtain ⟨areas, offsets⟩ := separate (by omega) (by omega) meets
  simp only [Cell.Apart, areas, ne_eq, not_true_eq_false, false_or] at apart
  omega

/-- An object too wide for registers is copied as a whole, and nothing else is changed. Its slot is
new; of the rest of memory only bytes change where registers were saved; and the machine still holds
the pointer if it is a variable or is used again. -/
theorem wide_dereference_copies_object {pointer result : ValueId} {value : Value} {ty : Ty}
    (operable : Operable hw p content c s) (points : c.Holds content pointer ty w)
    (not_float : ty.isFloat = false) (found : c.values.get? result = some value)
    (outside : value.register? = none) (distinct : pointer ≠ result)
    (wide : value.ty.fitsRegister = false) (run : Runs (lowerDereference pointer result) c () c')
    (separate : p.Separates c'.extent) : ∃ slot cell s', (Position.stack slot).cell? = some cell
      ∧ (c'.values.get? result).bind Value.position = some (.stack slot)
      ∧ c.extent cell.area ≤ cell.offset
      ∧ cell.offset + alignUp value.ty.size wordSize ≤ c'.extent cell.area
      ∧ Executes hw p c s c' s'
      ∧ ((∀ i < value.ty.size, ¬cell.Spans p 0 (alignUp value.ty.size wordSize)
        (w + BitVec.ofNat 64 i)) →
        ∀ i < value.ty.size, s'.memory (p.address cell + BitVec.ofNat 64 i) = s'.memory
        (w + BitVec.ofNat 64 i))
      ∧ (∀ a, ¬cell.Spans p 0 (alignUp value.ty.size wordSize) a → ¬Saved p c c' a →
        s'.memory a = s.memory a)
      ∧ ∀ old, c'.values.get? pointer = some old → old.isNamed = true ∨ 0 < old.references →
        old.constant? = some w ∨ ∃ place, old.position = some place
        ∧ hw.Holds p s' ty place (.word w) := by
  have reflects := operable.reflects
  have words := points.words not_float
  obtain ⟨is_word, pointed, found0, is_ty⟩ := points
  rw [lowerDereference, runs_found found] at run
  simp only [wide, Bool.false_eq_true, ↓reduceIte, runs_bind] at run
  obtain ⟨slot, c1, allocated, ptr, c2, taken, held⟩ := run
  obtain ⟨c5, block, rfl⟩ := runs_holding.mp held
  simp only [runs_bind, runs_setPosition] at block
  obtain ⟨chunk, c3, obtained, _, c4, copied, ⟨value4, found4⟩, rfl⟩ := block
  -- The slot is handed out.
  have hands := runs_allocateSlot allocated
  obtain ⟨cell, is_cell, beyond, whole, bounded⟩ := hands.whole
  have clear1 := hands.clear reflects.tracks beyond whole
  have walked1 := Discipline.walks_allocateSlot (D := .homed) _ _ _ reflects.homed allocated
  have reflects1 : Reflects hw p (.free content) c1 s :=
    reflects.after walked1.1 walked1.2.1 (hands.books ▸ reflects.tracks.grow walked1.2.1.extent)
  have saving1 : Saving p c s.memory c1 s.memory :=
    ⟨walked1.2.1, fun occupied =>
      (hands.aside.occupant _).symm.trans occupied, by rw [hands.books]; exact .refl _,
      fun changed => (changed rfl).elim⟩
  -- The two registers are obtained, which may save others.
  have leads2 : Leads c1 c2 := .of_walks (Discipline.walks_takeRegister pointer) taken
  have leads3 : Leads c2 c3 :=
    (Leads.withLock c2 ptr true).trans (.of_walks (Discipline.walks_obtainRegister .int) obtained)
  have leads4 : Leads c3 c4 := .of_walks (Discipline.walks_copyWords ptr chunk slot _ _) copied
  have separate3 : p.Separates c3.extent := separate.mono leads4.extent
  obtain ⟨s2, copies⟩ :=
    takeRegister_copies reflects1 (words.after walked1.2.1) taken (separate3.mono leads3.extent)
  have tracks2 : Tracks hw p content (c2.withLock ptr true).books s2 := by
    rw [books_withLock]
    exact copies.reflects.tracks
  have obtains : Obtains hw p .int (c2.withLock ptr true) chunk c3 :=
    obtainRegister_obtains obtained
  obtain ⟨s3, ran3, tracks3, secures, kept⟩ := obtains.room.carries tracks2 separate3
  have locked : (c2.withLock ptr true).registers.isLocked ptr = true :=
    RegisterFile.isLocked_lock_self _ copies.range
  have other : ptr ≠ chunk := by
    rintro rfl
    cases locked.symm.trans obtains.unlocked
  have saving : Saving p c s.memory c3 s3.memory := saving1.trans (copies.saving.trans
    (.trans (.of_books (.withLock c2 ptr true) (by simp))
      ((obtainRegister_confines obtained).saving obtains.room tracks2 separate3 ran3)))
  have clear2 :=
    (Discipline.walks_takeRegister (D := .zoned (.clear cell _)) pointer _ _ clear1 taken).1
  have clear3 := (Discipline.walks_obtainRegister (c := c2.withLock ptr true)
      (D := .zoned (.clear cell _)) .int _ _
    ⟨clear2.fits, clear2.allowed⟩ obtained).1
  -- The loop copies the object.
  have wordwise : alignUp value.ty.size wordSize / wordSize * 8
      = alignUp value.ty.size wordSize := by
    simp [alignUp, wordSize]
  have rounded : alignUp value.ty.size wordSize ≤ alignUp (max value.ty.size 1) wordSize :=
    Nat.mul_le_mul_right _ (Nat.div_le_div_right (by omega))
  have size_le : value.ty.size ≤ alignUp value.ty.size wordSize := le_alignUp _ (by decide)
  obtain ⟨context, s', ran4, part⟩ : _ ∧ ∃ s', Executes hw p c3 s3 c4 s'
    ∧ CopiesPart p cell ptr chunk w _ _ s3 s' :=
    copyWords_copies other obtains.bank is_cell
      (by rw [Nat.zero_add, wordwise]; simp [maxFrameSize] at bounded; omega)
      (by simp [kept locked, copies.content]) copied
  rw [Nat.zero_mul, Nat.zero_add, wordwise] at part
  have values : c4.values = c3.values := by rw [context]
  refine ⟨slot, cell, s', is_cell, ?_, beyond, ?_, ?_, fun apart i small => ?_,
    fun a free unsaved => ?_, fun old found' needed => ?_⟩
  · simp [Context.withLock, ValueStore.get?_modify, found4]
  · have fits : cell.Inside _ c3.extent := clear3.fits
    have grown := leads4.extent cell.area
    simp only [Cell.Inside] at fits
    exact (show cell.offset + alignUp value.ty.size wordSize ≤ c4.extent cell.area by omega)
  · exact (Executes.of_code hands.code).trans
      (copies.executes.trans (show Executes hw p c2 s2 c4 s' from ran3.trans ran4))
  · rw [part.inside (Nat.zero_le _) (by omega) (apart i small), part.outside (apart i small)]
  · rw [part.outside free]
    by_contra changed
    refine unsaved ((saving.memory changed).modify (values ▸ found4) (by rw [← values]; rfl)
      fun occupied _ => ?_)
    obtain ⟨_, standing, at_r, _⟩ := reflects.tracks.held occupied
    rw [standing_books found] at standing
    cases standing
    simp [Value.register?, show value.position = _ from at_r, Position.register?] at outside
  · have found3 : c3.values.get? pointer = some old := by
      rw [← values]
      simpa [Context.withLock, ValueStore.get?_modify, distinct] using found'
    obtain ⟨old2, found2, ages⟩ := leads3.before found3
    obtain ⟨old0, before, ages0⟩ := (walked1.2.1.trans leads2).before found2
    obtain rfl := Option.mem_unique before found0
    cases is_constant : old.constant? with
    | some bits =>
      rw [Value.constant?_eq_of_nature ages.nature] at is_constant
      exact .inl (congrArg
        some (Content.word.inj ((copies.reflects.constant found2 is_constant).symm.trans is_word)))
    | none =>
      have is_needed : old.isNeeded = true := by
        obtain named | used := needed
        · simp [Value.isNeeded, named]
        · cases kind : old.kind <;> simp [Value.constant?, kind] at is_constant <;>
            simp [Value.isNeeded, Value.isNamed, Value.named?, Value.isUnnamed, kind, used]
      have needed2 := (obtains.room.isNeeded found2 found3).symm.trans is_needed
      obtain ⟨place, at_place⟩ := Option.isSome_iff_exists.mp
        ((secures found2 found3).needed needed2 (copies.needed found2 needed2))
      refine .inr ⟨place, at_place, ?_⟩
      have holds := part.holds tracks3 (standing_books found3) at_place ?_ obtains.empty
          fun owned is_cell small spans => ?_
      · rwa [is_word, show old.standing.ty = ty from (ages.ty.trans ages0.ty).trans is_ty] at holds
      · exact (obtains.room.occupant (by simp [locked])).trans
          (by simpa [Context.withLock] using copies.empty)
      · obtain ⟨j, above, below, same⟩ := spans
        exact clear3.not_spans tracks3 separate3 found3 owned is_cell small
          ⟨j, above, by omega, same⟩

/-- A pointer as a constant, and a result of twelve bytes. -/
def pointing : Context :=
  { Context.operands true (.pointer .void) .u64 (.array (.int 4 false) 3) 4096 0 with
    frames := ⟨#[0]⟩
    currentFrame := some ⟨0⟩ }

def dereferenced : Context := (Gen.outcome (lowerDereference ⟨0⟩ ⟨2⟩) pointing).2

/-- The object takes two words of the frame. -/
theorem wide_dereference_copies_object_twelve :
    Runs (lowerDereference ⟨0⟩ ⟨2⟩) pointing () dereferenced
      ∧ ∃ s', Executes .zero .zero pointing ⟨fun _ => 0, fun a => a.toNat.toUInt8⟩ dereferenced s'
        ∧ ∀ i < 12, s'.memory (BitVec.ofNat 64 i) = s'.memory (4096 + BitVec.ofNat 64 i) := by
  have run : Runs (lowerDereference ⟨0⟩ ⟨2⟩) pointing () dereferenced :=
    Prod.ext (by decide +kernel) rfl
  have frames : dereferenced.frames.sizes = #[16] := by decide +kernel
  have statics : dereferenced.statics.used = 0 := by decide +kernel
  have blobs : dereferenced.constants.blobs = #[] := by decide +kernel
  have only {area : Area} {i : Nat} (inside : i < dereferenced.extent area) :
      area = .frame ⟨0⟩ ∧ i < 16 := by
    cases area with
    | frame id =>
      obtain ⟨index⟩ := id
      cases index <;> simp [Context.extent, Frames.size?, frames] at inside
      exact ⟨rfl, inside⟩
    | _ => simp [Context.extent, ConstantPool.get?, statics, blobs] at inside
  have separate : Placement.zero.Separates dereferenced.extent := by
    intro a b i j hi hj same
    obtain ⟨rfl, hi⟩ := only hi
    obtain ⟨rfl, hj⟩ := only hj
    exact ⟨rfl, Placement.offset_eq_of_address_eq (by omega) (by omega) same⟩
  have operable : Operable .zero .zero (.word ∘ fun v => if v.index = 0 then 4096 else 0) pointing
      ⟨fun _ => 0, fun a => a.toNat.toUInt8⟩ := .of_rests (by decide +kernel) (by decide +kernel)
  have points : pointing.Holds (.word ∘ fun v => if v.index = 0 then 4096 else 0) ⟨0⟩
      (.pointer .void) 4096 :=
    ⟨rfl, _, rfl, rfl⟩
  obtain ⟨slot, cell, s', is_cell, at_slot, _, _, ran, copied, _⟩ :=
    wide_dereference_copies_object operable points rfl rfl rfl (by decide) rfl run separate
  have at_start : (dereferenced.values.get? ⟨2⟩).bind Value.position
      = some (.stack (.inFrame ⟨0⟩ 0)) := by decide +kernel
  cases at_slot.symm.trans at_start
  cases is_cell
  have apart {i : Nat} (small : i < 12) :
      ¬Cell.Spans .zero ⟨.frame ⟨0⟩, 0⟩ 0 16 (4096 + BitVec.ofNat 64 i) := by
    rintro ⟨j, _, below, same⟩
    have same := congrArg BitVec.toNat same
    simp [Placement.zero, Placement.address, Placement.base] at same
    omega
  refine ⟨run, s', ran, fun i small => ?_⟩
  have same := copied (fun _ => apart) i small
  simpa [Placement.zero, Placement.address, Placement.base] using same

end RegisterBackend
