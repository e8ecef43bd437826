import RegisterBackend.Module.Typing
import RegisterBackend.Proofs.Discipline
import RegisterBackend.Proofs.Memory

/-!
When the books agree with the machine: a value's content is where the books put it, a register copy
that is not dirty is also in memory, and no two values share a byte.
-/
namespace RegisterBackend

variable {hw : Hardware} {p : Placement} {extent : Area → Nat}
  {home pos target : Position} {i size : Nat} {r : Register} {start w : Word}
  {ty : Ty} {v : ValueId}

structure Cell where
  area : Area
  offset : Nat
  deriving DecidableEq

/-- The place in memory that a position names; what lies beyond a frame is no such place. -/
def Position.cell? : Position → Option Cell
  | .register _ => none
  | .stack ⟨.frame id, offset⟩ => some ⟨.frame id, offset⟩
  | .stack ⟨.outgoing, _⟩ => none
  | .static offset => some ⟨.statics, offset⟩
  | .constant id => some ⟨.blob id, 0⟩

namespace Cell

/-- The `size` bytes, at least one, from the cell on are part of its area. -/
def Inside (cell : Cell) (size : Nat) (extent : Area → Nat) : Prop :=
  cell.offset + max size 1 ≤ extent cell.area

/-- The bytes of two values, at least one each, do not meet. -/
def Apart (cell : Cell) (size : Nat) (other : Cell) (otherSize : Nat) : Prop :=
  cell.area ≠ other.area ∨ cell.offset + max size 1 ≤ other.offset
    ∨ other.offset + max otherSize 1 ≤ cell.offset

theorem Apart.symm {cell other : Cell} {otherSize : Nat} (apart : cell.Apart size other otherSize) :
    other.Apart otherSize cell size := by
  rcases apart with areas | before | after
  · exact .inl (Ne.symm areas)
  · exact .inr (.inr before)
  · exact .inr (.inl after)

end Cell

theorem Word.offset_eq_of_add_eq {j : Nat} (hi : i < 2 ^ 64) (hj : j < 2 ^ 64)
    (same : start + BitVec.ofNat 64 i = start + BitVec.ofNat 64 j) : i = j := by
  have offsets := congrArg BitVec.toNat (add_left_cancel same)
  rwa [BitVec.toNat_ofNat, BitVec.toNat_ofNat, Nat.mod_eq_of_lt hi, Nat.mod_eq_of_lt hj] at offsets

namespace Placement

def base (p : Placement) : Area → Word
  | .frame id => p.frame id
  | .statics => p.statics
  | .blob id => p.code + p.constant id

def address (p : Placement) (cell : Cell) : Word :=
  p.base cell.area + BitVec.ofNat 64 cell.offset

def Separates (p : Placement) (extent : Area → Nat) : Prop :=
  ∀ {a b : Area} {i j : Nat}, i < extent a → j < extent b →
    p.address ⟨a, i⟩ = p.address ⟨b, j⟩ → a = b ∧ i = j

theorem Separates.mono {larger : Area → Nat} (separate : p.Separates larger)
    (le : ∀ area, extent area ≤ larger area) : p.Separates extent :=
  fun hi hj => separate (hi.trans_le (le _)) (hj.trans_le (le _))

theorem address_add (p : Placement) (cell : Cell) (i : Nat) :
    p.address cell + BitVec.ofNat 64 i = p.address ⟨cell.area, cell.offset + i⟩ := by
  simp only [address, BitVec.add_assoc, BitVec.ofNat_add]

theorem offset_eq_of_address_eq {area : Area} {j : Nat} (hi : i < 2 ^ 64) (hj : j < 2 ^ 64)
    (same : p.address ⟨area, i⟩ = p.address ⟨area, j⟩) : i = j :=
  Word.offset_eq_of_add_eq hi hj same

theorem slot_eq_address {slot : StackSlot} {cell : Cell}
    (is_cell : (Position.stack slot).cell? = some cell) : p.slot slot = p.address cell := by
  obtain ⟨base, offset⟩ := slot
  cases base <;> cases is_cell
  rfl

theorem write_apart (separate : p.Separates extent) {m : Memory}
    {written read : Cell} {readSize : Nat} {content : List UInt8}
    (inside : written.Inside size extent) (read_inside : read.Inside readSize extent) (fits :
      content.length ≤ size) (apart : written.Apart size read readSize) (small : i < readSize) :
    m.write (p.address written) content (p.address read + BitVec.ofNat 64 i)
      = m (p.address read + BitVec.ofNat 64 i) := by
  refine m.write_of_apart fun j bound same => ?_
  simp only [Cell.Inside] at inside read_inside
  rw [address_add, address_add] at same
  obtain ⟨areas, offsets⟩ := separate (by omega) (by omega) same
  rcases apart with different | before | after
  · exact different areas.symm
  · omega
  · omega

end Placement

/-- What a value is: a word for the types that a register can hold, else its bytes. -/
inductive Content where
  | word (w : Word)
  | block (bytes : List UInt8)
  deriving DecidableEq

def Ty.RegisterSized (ty : Ty) : Prop := ty.size = 1 ∨ ty.size = 2 ∨ ty.size = 4 ∨ ty.size = 8

instance (ty : Ty) : Decidable ty.RegisterSized := inferInstanceAs (Decidable (_ ∨ _))

theorem Ty.RegisterSized.le (sized : ty.RegisterSized) : ty.size ≤ 8 := by
  rcases sized with h | h | h | h <;> omega

theorem Ty.RegisterSized.size_pos (sized : ty.RegisterSized) : 0 < ty.size := by
  rcases sized with h | h | h | h <;> omega

theorem Ty.RegisterSized.toUInt8_toNat (sized : ty.RegisterSized) :
    ty.size.toUInt8.toNat = ty.size := by
  rcases sized with h | h | h | h <;> rw [h] <;> rfl

theorem Ty.size_of_isBool : (ty : Ty) → ty.isBool = true → ty.size = 1
  | .bool, _ => rfl
  | .const t, truth => by
    rw [Ty.size]
    exact size_of_isBool t truth

theorem Ty.isSigned_of_isBool : (ty : Ty) → ty.isBool = true → ty.isSigned = false
  | .bool, _ => rfl
  | .const t, truth => isSigned_of_isBool t truth

namespace Hardware

/-- What a float register has after a trip through memory. -/
def refloat (hw : Hardware) (size : Nat) (w : Word) : Word :=
  if size = 4 then hw.double (hw.single w) else Word.ofBytes ((Word.bytes w).take size)

/-- The form in which a register holds a value of the type. -/
def Canonical (hw : Hardware) (ty : Ty) (w : Word) : Prop :=
  match ty.bank with
  | .int => ty.canonicalBits w = w
  | .float => hw.refloat ty.size w = w

def loaded (hw : Hardware) (ty : Ty) (m : Memory) (address : Word) : Word :=
  match ty.bank with
  | .int => Word.narrow (m.word address) ty.size ty.isSigned
  | .float => hw.fetch .float m address ty.size

def read (hw : Hardware) (ty : Ty) (m : Memory) (address : Word) : Content :=
  if ty.RegisterSized then .word (hw.loaded ty m address) else .block (m.bytes address ty.size)

theorem read_of_registerSized (sized : ty.RegisterSized) (m : Memory) (address : Word) :
    hw.read ty m address = .word (hw.loaded ty m address) := if_pos sized

variable {m m' : Memory} {address address' : Word}

theorem loaded_congr (sized : ty.RegisterSized)
    (bytes : m'.bytes address' ty.size = m.bytes address ty.size) :
    hw.loaded ty m' address' = hw.loaded ty m address := by
  unfold loaded
  cases ty.bank with
  | int => simp only [narrow_word_eq _ _ _ _ sized.le, bytes]
  | float =>
    simp only [fetch]
    split
    · next single =>
      rw [single] at bytes
      rw [bytes]
    · rw [bytes]

theorem read_eq_of_bytes (bytes : m'.bytes address' ty.size = m.bytes address ty.size) :
    hw.read ty m' address' = hw.read ty m address := by
  unfold read
  split
  · next sized => rw [loaded_congr sized bytes]
  · rw [bytes]

theorem read_congr
    (same : ∀ i < ty.size, m' (address + BitVec.ofNat 64 i) = m (address + BitVec.ofNat 64 i)) :
    hw.read ty m' address = hw.read ty m address :=
  read_eq_of_bytes (Memory.bytes_congr same)

theorem length_deposit {bank : Bank} (small : size ≤ 8) :
    (hw.deposit bank w size).length = size := by
  cases bank with
  | int => simp [deposit, small]
  | float =>
    simp only [deposit]
    split
    · next single => simp [single]
    · simp [small]

theorem narrow_of_canonical (sized : ty.RegisterSized) (canonical : ty.canonicalBits w = w) :
    Word.narrow w ty.size ty.isSigned = w := by
  have pos := sized.size_pos
  have le := sized.le
  by_cases bool : ty.isBool = true
  · have bit : w = 0 ∨ w = 1 := by
      rw [Ty.canonicalBits, if_pos bool] at canonical
      split at canonical
      · exact .inl canonical.symm
      · exact .inr canonical.symm
    rw [ty.size_of_isBool bool, ty.isSigned_of_isBool bool]
    rcases bit with rfl | rfl <;> rfl
  · rw [Ty.canonicalBits, if_neg bool] at canonical
    split at canonical
    · next whole =>
      have eight : ty.size = 8 := by simp only [wordSize] at whole; omega
      rw [eight, narrow_word]
    · exact canonical

def reloaded (hw : Hardware) (ty : Ty) (w : Word) : Word :=
  match ty.bank with
  | .int => Word.narrow w ty.size ty.isSigned
  | .float => hw.refloat ty.size w

theorem read_deposited (sized : ty.RegisterSized) (w : Word) (m : Memory) (address : Word) :
    hw.read ty (m.write address (hw.deposit ty.bank w ty.size)) address = .word
    (hw.reloaded ty w) := by
  have length : (hw.deposit ty.bank w ty.size).length = ty.size := length_deposit sized.le
  have bytes : (m.write address (hw.deposit ty.bank w ty.size)).bytes address ty.size
      = hw.deposit ty.bank w ty.size := by
    have written :=
      m.bytes_write address (hw.deposit ty.bank w ty.size) (by have := sized.le; omega)
    rwa [length] at written
  rw [read_of_registerSized sized]
  refine congrArg Content.word ?_
  unfold loaded reloaded
  cases bank : ty.bank with
  | int =>
    simp only [bank] at bytes ⊢
    rw [narrow_word_eq _ _ _ _ sized.le, bytes, deposit, narrow_ofBytes_wordBytes _ _ _ sized.le]
  | float =>
    simp only [bank, fetch, refloat] at bytes ⊢
    split
    · next single =>
      rw [single] at bytes ⊢
      rw [bytes, deposit, if_pos rfl, ofNat_littleEndian_take]
    · next wide => rw [bytes, deposit, if_neg wide]

theorem reloaded_of_canonical (sized : ty.RegisterSized) (canonical : hw.Canonical ty w) :
    hw.reloaded ty w = w := by
  unfold Canonical at canonical
  unfold reloaded
  cases bank : ty.bank with
  | int =>
    simp only [bank] at canonical
    exact narrow_of_canonical sized canonical
  | float => simpa only [bank] using canonical

theorem read_deposit (sized : ty.RegisterSized) (canonical : hw.Canonical ty w) (m : Memory)
    (address : Word) :
    hw.read ty (m.write address (hw.deposit ty.bank w ty.size)) address = .word w := by
  rw [read_deposited sized, reloaded_of_canonical sized canonical]

end Hardware

structure Standing where
  ty : Ty
  named : Bool
  position : Option Position
  home : Option Position
  dirty : Bool

namespace Standing

/-- The position is memory that belongs to the value. -/
def Owns (st : Standing) (pos : Position) : Prop :=
  (st.position = some pos ∧ pos.isRegister = false) ∨ st.home = some pos

/-- The position is memory that has to hold the value's content. -/
def Current (st : Standing) (pos : Position) : Prop :=
  (st.position = some pos ∧ pos.isRegister = false)
    ∨ (st.home = some pos ∧ st.dirty = false ∧ ∃ r, st.position = some (.register r))

theorem Current.owns {st : Standing} (current : st.Current pos) : st.Owns pos := by
  rcases current with memory | ⟨home, _⟩
  · exact .inl memory
  · exact .inr home

end Standing

@[ext] structure Books where
  standing : ValueId → Option Standing
  occupant : Register → Option ValueId
  extent : Area → Nat

namespace Books

def put (b : Books) (v : ValueId) (st : Standing) : Books :=
  { b with standing := Function.update b.standing v (some st) }

def occupy (b : Books) (r : Register) (occupant : Option ValueId) : Books :=
  { b with occupant := Function.update b.occupant r occupant }

def without (b : Books) (v : ValueId) : Books :=
  { b with occupant := fun r => if b.occupant r = some v then none else b.occupant r }

def withExtent (b : Books) (extent : Area → Nat) : Books := { b with extent }

end Books

structure Tracks (hw : Hardware) (p : Placement) (content : ValueId → Content) (b : Books)
    (s : MachineState) : Prop where
  held : ∀ {r v}, b.occupant r = some v → ∃ st, b.standing v = some st
    ∧ st.position = some (.register r) ∧ st.ty.bank = r.bank ∧ st.ty.RegisterSized
    ∧ content v = .word (s.registers r) ∧ (st.named = true → st.dirty = true ∨ st.home.isSome)
  owned : ∀ {v st r}, b.standing v = some st → st.position = some (.register r) →
    b.occupant r = some v
  canonical : ∀ {v st w}, b.standing v = some st → st.position.isSome → content v = .word w →
    hw.Canonical st.ty w
  located : ∀ {v st pos}, b.standing v = some st → st.Owns pos →
    ∃ cell, pos.cell? = some cell ∧ cell.Inside st.ty.size b.extent
  apart : ∀ {v w st su pos other cell cell'}, v ≠ w → b.standing v = some st →
    b.standing w = some su → st.Owns pos → su.Owns other → pos.cell? = some cell →
    other.cell? = some cell' → cell.Apart st.ty.size cell' su.ty.size
  current : ∀ {v st pos cell}, b.standing v = some st → st.Current pos →
    pos.cell? = some cell → hw.read st.ty s.memory (p.address cell) = content v

namespace Tracks
variable {content content' : ValueId → Content} {b b' : Books} {s s' : MachineState}

theorem change (tracks : Tracks hw p content b s) {st st' : Standing} (old : b.standing v = some st)
    (standing : b'.standing = Function.update b.standing v (some st')) (ty : st'.ty = st.ty)
    (extent : ∀ area, b.extent area ≤ b'.extent area)
    (content_other : ∀ {w}, w ≠ v → content' w = content w)
    (other : ∀ {r w}, w ≠ v → (b'.occupant r = some w ↔ b.occupant r = some w))
    (registers : ∀ {r w}, w ≠ v → b.occupant r = some w → s'.registers r = s.registers r)
    (memory : ∀ {w su pos cell}, w ≠ v → b.standing w = some su → su.Current pos →
      pos.cell? = some cell → cell.Inside su.ty.size b.extent →
      hw.read su.ty s'.memory (p.address cell) = hw.read su.ty s.memory (p.address cell))
    (mine : ∀ {r}, b'.occupant r = some v ↔ st'.position = some (.register r))
    (seated : ∀ {r}, st'.position = some (.register r) → st.ty.bank = r.bank ∧ st.ty.RegisterSized
      ∧ content' v = .word (s'.registers r)
      ∧ (st'.named = true → st'.dirty = true ∨ st'.home.isSome))
    (canonical : ∀ {w}, st'.position.isSome → content' v = .word w → hw.Canonical st.ty w)
    (owns : ∀ {pos}, st'.Owns pos → st.Owns pos
      ∨ ∃ cell, pos.cell? = some cell ∧ b.extent cell.area ≤ cell.offset
      ∧ cell.Inside st.ty.size b'.extent)
    (current : ∀ {pos cell}, st'.Current pos → pos.cell? = some cell →
      hw.read st.ty s'.memory (p.address cell) = content' v) : Tracks hw p content' b' s' := by
  have at_v : b'.standing v = some st' := by rw [standing, Function.update_self]
  have elsewhere {w : ValueId} (ne : w ≠ v) : b'.standing w = b.standing w := by
    rw [standing, Function.update_of_ne ne]
  have lookup {w : ValueId} {su : Standing} (found : b'.standing w = some su) :
      (w = v ∧ su = st') ∨ (w ≠ v ∧ b.standing w = some su) := by
    by_cases same : w = v
    · exact .inl ⟨same, Option.mem_unique found (same ▸ at_v)⟩
    · exact .inr ⟨same, elsewhere same ▸ found⟩
  have still_inside {cell : Cell} {size : Nat} (inside : cell.Inside size b.extent) :
      cell.Inside size b'.extent := le_trans inside (extent _)
  -- A place of `v` is one it had before, or lies beyond everything that was handed out.
  have place {pos : Position} {cell : Cell} (owned : st'.Owns pos)
      (is_cell : pos.cell? = some cell) :
      st.Owns pos ∨ (b.extent cell.area ≤ cell.offset ∧ cell.Inside st.ty.size b'.extent) := by
    rcases owns owned with before | ⟨fresh, is_fresh, beyond, inside⟩
    · exact .inl before
    · rw [is_cell] at is_fresh
      cases is_fresh
      exact .inr ⟨beyond, inside⟩
  have apart_v {w : ValueId} {su : Standing} {pos other : Position} {cell cell' : Cell}
      (ne : w ≠ v) (standing_w : b.standing w = some su) (owned : st'.Owns pos)
      (owned_w : su.Owns other) (is_cell : pos.cell? = some cell)
      (is_cell' : other.cell? = some cell') : cell.Apart st'.ty.size cell' su.ty.size := by
    rw [ty]
    rcases place owned is_cell with before | ⟨beyond, _⟩
    · exact tracks.apart (Ne.symm ne) old standing_w before owned_w is_cell is_cell'
    · obtain ⟨_, same, inside⟩ := tracks.located standing_w owned_w
      rw [is_cell'] at same
      cases same
      by_cases areas : cell.area = cell'.area
      · refine .inr (.inr ?_)
        simp only [Cell.Inside, ← areas] at inside
        exact inside.trans beyond
      · exact .inl areas
  constructor
  case held =>
    intro r w occupied
    by_cases same : w = v
    · subst same
      obtain ⟨bank, sized, word, backed⟩ := seated (mine.mp occupied)
      exact ⟨st', at_v, mine.mp occupied, ty ▸ bank, ty ▸ sized, word, backed⟩
    · have before := (other same).mp occupied
      obtain ⟨su, standing_w, pos, bank, sized, word, backed⟩ := tracks.held before
      refine ⟨su, by rw [elsewhere same, standing_w], pos, bank, sized, ?_, backed⟩
      rw [content_other same, registers same before, word]
  case owned =>
    intro w su r standing_w pos
    obtain ⟨rfl, rfl⟩ | ⟨ne, before⟩ := lookup standing_w
    · exact mine.mpr pos
    · exact (other ne).mpr (tracks.owned before pos)
  case canonical =>
    intro w su word standing_w positioned is_word
    obtain ⟨rfl, rfl⟩ | ⟨ne, before⟩ := lookup standing_w
    · exact ty ▸ canonical positioned is_word
    · exact tracks.canonical before positioned (content_other ne ▸ is_word)
  case located =>
    intro w su pos standing_w owned
    obtain ⟨rfl, rfl⟩ | ⟨_, before⟩ := lookup standing_w
    · rw [ty]
      rcases owns owned with before | ⟨cell, is_cell, _, inside⟩
      · obtain ⟨cell, is_cell, inside⟩ := tracks.located old before
        exact ⟨cell, is_cell, still_inside inside⟩
      · exact ⟨cell, is_cell, inside⟩
    · obtain ⟨cell, is_cell, inside⟩ := tracks.located before owned
      exact ⟨cell, is_cell, still_inside inside⟩
  case apart =>
    intro w u su st2 pos other cell cell' ne standing_w standing_u owned_w
      owned_u is_cell is_cell'
    obtain ⟨rfl, rfl⟩ | ⟨other_w, before_w⟩ := lookup standing_w
    · rw [elsewhere (Ne.symm ne)] at standing_u
      exact apart_v (Ne.symm ne) standing_u owned_w owned_u is_cell is_cell'
    · obtain ⟨rfl, rfl⟩ | ⟨_, before_u⟩ := lookup standing_u
      · exact (apart_v other_w before_w owned_u owned_w is_cell' is_cell).symm
      · exact tracks.apart ne before_w before_u owned_w owned_u is_cell is_cell'
  case current =>
    intro w su pos cell standing_w now is_cell
    obtain ⟨rfl, rfl⟩ | ⟨ne, before⟩ := lookup standing_w
    · rw [ty]
      exact current now is_cell
    · obtain ⟨_, is_cell', inside⟩ := tracks.located before now.owns
      rw [is_cell] at is_cell'
      cases is_cell'
      rw [memory ne before now is_cell inside, content_other ne]
      exact tracks.current before now is_cell

section
variable (tracks : Tracks hw p content b s) {st : Standing} {q : Register} {cell : Cell}
include tracks

section
variable (standing : b.standing v = some st)
include standing

theorem home_not_register (r : Register) : st.home ≠ some (.register r) := by
  intro home
  obtain ⟨cell, is_cell, _⟩ := tracks.located standing (.inr home)
  cases is_cell

theorem occupant_iff : b.occupant r = some v ↔ st.position = some (.register r) := by
  refine ⟨fun occupied => ?_, tracks.owned standing⟩
  obtain ⟨_, standing', pos, _⟩ := tracks.held occupied
  rw [standing] at standing'
  cases standing'
  exact pos

theorem seated (pos : st.position = some (.register r)) :
    st.ty.bank = r.bank ∧ st.ty.RegisterSized ∧ content v = .word (s.registers r)
      ∧ (st.named = true → st.dirty = true ∨ st.home.isSome) := by
  obtain ⟨_, standing', _, seat⟩ := tracks.held (tracks.owned standing pos)
  rw [standing] at standing'
  cases standing'
  exact seat

theorem occupant_vacated_of_ne {w : ValueId} (pos : st.position = some (.register r)) (ne : w ≠ v) :
    (b.occupy r none).occupant q = some w ↔ b.occupant q = some w := by
  by_cases same : q = r
  · subst same
    simp [Books.occupy, tracks.owned standing pos, Ne.symm ne]
  · simp [Books.occupy, same]

theorem occupant_vacated_ne (pos : st.position = some (.register r)) :
    (b.occupy r none).occupant q ≠ some v := by
  intro taken
  by_cases same : q = r
  · simp [Books.occupy, same] at taken
  · have at_q : b.occupant q = some v := by simpa [Books.occupy, same] using taken
    rw [tracks.occupant_iff standing, pos] at at_q
    cases at_q
    exact same rfl

end

theorem set (empty : b.occupant r = none) (w : Word) : Tracks hw p content b (s.set r w) where
  held {q v} occupied := by
    obtain ⟨st, standing, pos, bank, sized, word, backed⟩ := tracks.held occupied
    have ne : q ≠ r := by
      rintro rfl
      rw [empty] at occupied
      cases occupied
    exact ⟨st, standing, pos, bank, sized, by simpa [MachineState.set, ne] using word, backed⟩
  owned := tracks.owned
  canonical := tracks.canonical
  located := tracks.located
  apart := tracks.apart
  current := tracks.current

theorem release (standing : b.standing v = some st)
    (pos : st.position = some (.register r)) (clean : st.dirty = false) :
    Tracks hw p content ((b.occupy r none).put v { st with position := st.home }) s := by
  have no_register := tracks.home_not_register standing
  refine tracks.change standing rfl rfl (fun _ => le_rfl) (fun _ => rfl)
    (tracks.occupant_vacated_of_ne standing pos) (fun _ _ => rfl) (fun _ _ _ _ _ => rfl) ?mine
    (fun home => (no_register _ home).elim)
      (fun _ => tracks.canonical standing (by simp [pos]))
    ?owns ?current
  case mine =>
    exact fun {q} => ⟨fun taken => (tracks.occupant_vacated_ne standing pos taken).elim,
      fun home => (no_register q home).elim⟩
  case owns =>
    rintro place (⟨home, _⟩ | home) <;> exact .inl (.inr home)
  case current =>
    rintro place cell (⟨home, _⟩ | ⟨home, _, _⟩) is_cell <;>
      exact tracks.current standing (.inr ⟨home, clean, r, pos⟩) is_cell

theorem grant (standing : b.standing v = some st) (named : st.named = true)
    (homeless : st.home = none) (is_cell : home.cell? = some cell)
    (larger : ∀ area, b.extent area ≤ extent area) (beyond : b.extent cell.area ≤ cell.offset)
    (inside : cell.Inside st.ty.size extent) :
    Tracks hw p content ((b.put v { st with home := some home }).withExtent extent) s := by
  have mine {r : Register} := tracks.occupant_iff (r := r) standing
  refine tracks.change standing rfl rfl larger (fun _ => rfl) (fun _ => Iff.rfl) (fun _ _ => rfl)
    (fun _ _ _ _ _ => rfl) mine ?seated (fun positioned => tracks.canonical standing positioned)
    ?owns ?current
  case seated =>
    intro r pos
    obtain ⟨bank, sized, word, _⟩ := tracks.seated standing pos
    exact ⟨bank, sized, word, fun _ => .inr rfl⟩
  case owns =>
    rintro place (memory | fresh)
    · exact .inl (.inl memory)
    · cases fresh
      exact .inr ⟨cell, is_cell, beyond, inside⟩
  case current =>
    rintro place cell' (memory | ⟨_, clean, r, pos⟩) is_cell'
    · exact tracks.current standing (.inl memory) is_cell'
    · have backed := (tracks.seated standing pos).2.2.2 named
      simp only at clean
      simp [homeless, clean] at backed

theorem writeBack (separate : p.Separates b.extent)
    (standing : b.standing v = some st) (pos : st.position = some (.register r))
    (homed : st.home = some home) (is_cell : home.cell? = some cell) :
    Tracks hw p content (b.put v { st with dirty := false })
      (s.write (p.address cell) (hw.deposit r.bank (s.registers r) st.ty.size)) := by
  obtain ⟨bank, sized, word, _⟩ := tracks.seated standing pos
  have canonical := tracks.canonical standing (by simp [pos]) word
  obtain ⟨_, is_cell', inside⟩ := tracks.located standing (.inr homed)
  rw [is_cell] at is_cell'
  cases is_cell'
  have mine {q : Register} := tracks.occupant_iff (r := q) standing
  refine tracks.change standing rfl rfl (fun _ => le_rfl) (fun _ => rfl) (fun _ => Iff.rfl)
    (fun _ _ => rfl) ?memory mine ?seated (fun _ => tracks.canonical standing (by simp [pos]))
    ?owns ?current
  case memory =>
    intro w su place other ne standing_w now is_other other_inside
    have apart :=
      tracks.apart (Ne.symm ne) standing standing_w (.inr homed) now.owns is_cell is_other
    exact Hardware.read_congr fun i small => Placement.write_apart separate inside other_inside
      (Hardware.length_deposit sized.le).le apart small
  case seated =>
    intro q at_q
    rw [pos] at at_q
    cases at_q
    exact ⟨bank, sized, word, fun _ => .inr (by simp [homed])⟩
  case owns =>
    rintro place (memory | homed)
    · exact .inl (.inl memory)
    · exact .inl (.inr homed)
  case current =>
    rintro place cell' (⟨at_place, memory⟩ | ⟨at_home, _, _⟩) is_cell'
    · rw [pos] at at_place
      cases at_place
      cases memory
    · rw [homed] at at_home
      cases at_home
      rw [is_cell] at is_cell'
      cases is_cell'
      have kept := Hardware.read_deposit sized canonical s.memory (p.address cell)
      rw [bank] at kept
      exact kept.trans word.symm

theorem spill (separate : p.Separates extent)
    (standing : b.standing v = some st) (pos : st.position = some (.register r))
    (is_cell : target.cell? = some cell) (larger : ∀ area, b.extent area ≤ extent area)
    (beyond : b.extent cell.area ≤ cell.offset) (inside : cell.Inside st.ty.size extent) :
    Tracks hw p content
      (((b.occupy r none).put v { st with position := some target }).withExtent extent)
      (s.write (p.address cell) (hw.deposit r.bank (s.registers r) st.ty.size)) := by
  obtain ⟨bank, sized, word, _⟩ := tracks.seated standing pos
  have canonical := tracks.canonical standing (by simp [pos]) word
  have no_register (q : Register) : target ≠ .register q := by
    rintro rfl
    cases is_cell
  refine tracks.change standing rfl rfl larger (fun _ => rfl)
    (tracks.occupant_vacated_of_ne standing pos) (fun _ _ => rfl) ?memory ?mine
    ?seated (fun _ => tracks.canonical standing (by simp [pos])) ?owns ?current
  case memory =>
    intro w su place other ne standing_w now is_other other_inside
    refine Hardware.read_congr fun i small => Placement.write_apart separate inside
      (le_trans other_inside (larger _)) (Hardware.length_deposit sized.le).le ?_ small
    by_cases areas : cell.area = other.area
    · refine .inr (.inr ?_)
      simp only [Cell.Inside, ← areas] at other_inside
      exact other_inside.trans beyond
    · exact .inl areas
  case mine =>
    exact fun {q} => ⟨fun taken => (tracks.occupant_vacated_ne standing pos taken).elim,
      fun at_q => (no_register q (Option.some.inj at_q)).elim⟩
  case seated => exact fun {q} at_q => (no_register q (Option.some.inj at_q)).elim
  case owns =>
    rintro place (⟨at_target, _⟩ | homed)
    · cases at_target
      exact .inr ⟨cell, is_cell, beyond, inside⟩
    · exact .inl (.inr homed)
  case current =>
    rintro place cell' (⟨at_target, _⟩ | ⟨_, _, q, at_q⟩) is_cell'
    · cases at_target
      rw [is_cell] at is_cell'
      cases is_cell'
      have kept := Hardware.read_deposit sized canonical s.memory (p.address cell)
      rw [bank] at kept
      exact kept.trans word.symm
    · exact (no_register q (Option.some.inj at_q)).elim

section
variable (standing : b.standing v = some st)
include standing

theorem seat (room : ∀ u, b.occupant r = some u → u = v)
    (bank : st.ty.bank = r.bank) (sized : st.ty.RegisterSized) (canonical : hw.Canonical st.ty w)
    (dirty : Bool) (backed : st.named = true → dirty = true ∨ st.home.isSome)
    (kept : dirty = false → ∀ home cell, st.home = some home → home.cell? = some cell →
      hw.read st.ty s.memory (p.address cell) = .word w) :
    Tracks hw p (Function.update content v (.word w))
      (((b.without v).occupy r (some v)).put v { st with position := some (.register r), dirty })
      (s.set r w) := by
  refine tracks.change standing rfl rfl (fun _ => le_rfl) (fun ne => Function.update_of_ne ne _ _)
    ?other ?registers (fun _ _ _ _ _ => rfl) ?mine ?seated ?canonical ?owns ?current
  case other =>
    intro q u ne
    by_cases same : q = r
    · subst same
      have elsewhere : b.occupant q ≠ some u := fun taken => ne (room u taken)
      simp [Books.put, Books.occupy, Ne.symm ne, elsewhere]
    · by_cases mine : b.occupant q = some v
      · simp [Books.put, Books.occupy, Books.without, same, mine, Ne.symm ne]
      · simp [Books.put, Books.occupy, Books.without, same, mine]
  case registers =>
    intro q u ne taken
    have elsewhere : q ≠ r := by
      rintro rfl
      exact ne (room u taken)
    simp [MachineState.set, elsewhere]
  case mine =>
    intro q
    by_cases same : q = r
    · simp [Books.put, Books.occupy, same]
    · simp [Books.put, Books.occupy, Books.without, same, Ne.symm same]
  case seated =>
    rintro q ⟨⟩
    exact ⟨bank, sized, by simp [MachineState.set], backed⟩
  case canonical =>
    intro u _ is_word
    rw [Function.update_self] at is_word
    cases is_word
    exact canonical
  case owns =>
    rintro place (⟨at_place, memory⟩ | homed)
    · cases at_place
      cases memory
    · exact .inl (.inr homed)
  case current =>
    rintro place cell (⟨at_place, memory⟩ | ⟨homed, clean, _⟩) is_cell
    · cases at_place
      cases memory
    · rw [Function.update_self]
      exact kept clean place cell homed is_cell

theorem without_of_outside (outside : ∀ r, st.position ≠ some (.register r)) : b.without v = b := by
  have never (r : Register) : b.occupant r ≠ some v := fun taken =>
    outside r ((tracks.occupant_iff standing).mp taken)
  simp [Books.without, never]

theorem without_of_seated (pos : st.position = some (.register r)) :
    b.without v = b.occupy r none := by
  refine Books.ext rfl (funext fun q => ?_) rfl
  simp only [Books.without, Books.occupy]
  by_cases same : q = r
  · subst same
    simp [tracks.owned standing pos]
  · have elsewhere : b.occupant q ≠ some v := by
      rw [Ne, tracks.occupant_iff standing, pos]
      rintro ⟨⟩
      exact same rfl
    simp [same, elsewhere]

end

end

end Tracks

end RegisterBackend
