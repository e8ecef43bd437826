import Mathlib
import RegisterBackend.Allocation.Eviction

/-!
What a step of code generation does when it ends normally. `Runs x c a c'` says that `x`, started in
`c`, gives `a` and leaves `c'`; each elementary step has one lemma that says all that it changes.
-/
namespace RegisterBackend

variable {α β : Type} {align left old size : Nat} {bank : Bank} {f : RegisterFile} {frame : FrameId}
  {home pos : Position} {loc : Location} {q r : Register} {v : ValueId} {value : Value}

theorem Ty.isPointer_eq : (ty : Ty) → ty.isPointer = ty.pointee?.isSome
  | .const t => t.isPointer_eq
  | .pointer _ | .void | .bool | .int _ _ | .float _ | .array _ _ | .struct
      _ _ | .function _ _ => rfl

theorem Ty.isPointer_of_pointee? {ty pointee : Ty} (is_pointee : ty.pointee? = some pointee) :
    ty.isPointer = true := by
  rw [ty.isPointer_eq, is_pointee]
  rfl

namespace RegisterSet

section
variable (s : RegisterSet)
include s

theorem flags_withFlags (bank other : Bank) (flags : BitVec 64) :
    (s.withFlags bank flags).flags other = if other = bank then flags else s.flags other := by
  cases bank <;> cases other <;> rfl

theorem withFlags_flags (bank : Bank) : s.withFlags bank (s.flags bank) = s := by
  cases bank <;> rfl

theorem withFlags_withFlags (bank : Bank) (first second : BitVec 64) :
    (s.withFlags bank first).withFlags bank second = s.withFlags bank second := by
  cases bank <;> rfl

theorem getLsbD_flags_put (r : Register) (present : Bool) (bank : Bank) {i : Nat} (small : i < 64) :
    ((s.put r present).flags bank).getLsbD i
      = if bank = r.bank ∧ i = r.id.toNat then present else (s.flags bank).getLsbD i := by
  by_cases same : bank = r.bank
  · by_cases here : i = r.id.toNat
    · subst here
      cases present <;> simp [put, insert, erase, flags_withFlags, same, small]
    · cases present <;>
        simp [put, insert, erase, flags_withFlags, same, here, small]
  · cases present <;> simp [put, insert, erase, flags_withFlags, same]

theorem contains_put (r q : Register) (present : Bool) (small : q.id.toNat < 64) :
    (s.put r present).contains q = if q = r then present else s.contains q := by
  have same : (q.bank = r.bank ∧ q.id.toNat = r.id.toNat) ↔ q = r := by
    cases q; cases r
    simp [UInt8.toNat_inj]
  simp only [contains, getLsbD_flags_put s r present q.bank small, same]

theorem put_put_contains (r : Register) (present : Bool) :
    (s.put r present).put r (s.contains r) = s := by
  have flags_eq : ((s.put r present).put r (s.contains r)).flags r.bank = s.flags r.bank := by
    apply BitVec.eq_of_getLsbD_eq
    intro i small
    rw [getLsbD_flags_put _ _ _ _ small, getLsbD_flags_put _ _ _ _ small]
    by_cases here : i = r.id.toNat
    · simp [here, contains]
    · simp [here]
  have shape : (s.put r present).put r (s.contains r)
      = s.withFlags r.bank (((s.put r present).put r (s.contains r)).flags r.bank) := by
    cases present <;> cases s.contains r <;>
      simp [put, insert, erase, flags_withFlags, withFlags_withFlags]
  rw [shape, flags_eq, withFlags_flags]

end

end RegisterSet

namespace RegisterFile

theorem occupants_withOccupants (f : RegisterFile) (bank other : Bank)
    (occupants : Vector (Option ValueId) Bank.size) :
    (f.withOccupants bank occupants).occupants other
      = if other = bank then occupants else f.occupants other := by
  cases bank <;> cases other <;> rfl

theorem inRange_of_occupant? (held : f.occupant? r = some v) : r.inRange = true := by
  simp only [occupant?, Option.join_eq_some_iff] at held
  obtain ⟨small, _⟩ := Vector.getElem?_eq_some_iff.mp held
  simpa [Register.inRange] using small

theorem occupant?_of_not_inRange (range : ¬r.inRange = true) : f.occupant? r = none := by
  cases held : f.occupant? r with
  | none => rfl
  | some v => exact (range (inRange_of_occupant? held)).elim

theorem occupant?_setOccupant (f : RegisterFile) (q : Register) (occupant : Option ValueId)
    (range : r.inRange = true) :
    (f.setOccupant r occupant).occupant? q = if q = r then occupant else f.occupant? q := by
  have small : r.id.toNat < Bank.size := by simpa [Register.inRange] using range
  by_cases same : q = r
  · subst same
    simp [setOccupant, occupant?, occupants_withOccupants, small]
  · rw [if_neg same]
    by_cases bank : q.bank = r.bank
    · have id : q.id.toNat ≠ r.id.toNat := by
        intro eq
        refine same ?_
        cases q; cases r
        simp_all [UInt8.toNat_inj]
      simp [setOccupant, occupant?, occupants_withOccupants, bank, Ne.symm id]
    · simp [setOccupant, occupant?, occupants_withOccupants, bank]

@[simp] theorem locked_setOccupant (f : RegisterFile) (r : Register) (occupant : Option ValueId) :
    (f.setOccupant r occupant).locked = f.locked := by
  cases h : r.bank <;> simp [setOccupant, withOccupants, h]

@[simp] theorem occupant?_setLocked (f : RegisterFile) (r q : Register) (locked : Bool) :
    (f.setLocked r locked).occupant? q = f.occupant? q := by
  cases h : q.bank <;> simp [setLocked, occupant?, occupants, h]

theorem isLocked_lock (r : Register) (is_locked : f.isLocked q = true) :
    (f.setLocked r true).isLocked q = true := by
  have small : q.id.toNat < 64 := BitVec.lt_of_getLsbD is_locked
  rw [isLocked, setLocked, RegisterSet.contains_put _ _ _ _ small]
  split
  · rfl
  · exact is_locked

theorem isLocked_lock_self (f : RegisterFile) (range : r.inRange = true) :
    (f.setLocked r true).isLocked r = true := by
  have small : r.id.toNat < Bank.size := by simpa [Register.inRange] using range
  have fits : Bank.size ≤ 64 := by decide
  rw [isLocked, setLocked, RegisterSet.contains_put _ _ _ _ (by omega), if_pos rfl]

theorem mem_registers : r ∈ bank.registers ↔ r.bank = bank ∧ r.inRange = true := by
  simp only [Bank.registers, List.mem_map, List.mem_range]
  constructor
  · rintro ⟨i, small, rfl⟩
    refine ⟨rfl, ?_⟩
    have : i % 256 = i := Nat.mod_eq_of_lt (by simp [Bank.size] at small; omega)
    simpa [Register.inRange, this] using small
  · rintro ⟨rfl, range⟩
    refine ⟨r.id.toNat, by simpa [Register.inRange] using range, ?_⟩
    cases r
    simp

theorem mem_occupied : (r, v) ∈ f.occupied bank ↔ r.bank = bank ∧ f.occupant? r = some v := by
  simp only [occupied, List.mem_filterMap, Option.map_eq_some_iff]
  constructor
  · rintro ⟨q, member, w, held, same⟩
    cases same
    exact ⟨(mem_registers.mp member).1, held⟩
  · rintro ⟨rfl, held⟩
    exact ⟨r, mem_registers.mpr ⟨rfl, inRange_of_occupant? held⟩, v, held, rfl⟩

theorem mem_allOccupied : (r, v) ∈ f.allOccupied ↔ f.occupant? r = some v := by
  simp only [allOccupied, List.mem_append, mem_occupied]
  constructor
  · rintro (⟨_, held⟩ | ⟨_, held⟩) <;> exact held
  · intro held
    cases h : r.bank
    · exact .inl ⟨rfl, held⟩
    · exact .inr ⟨rfl, held⟩

theorem mem_free : r ∈ f.free bank ↔ r.bank = bank ∧ r.inRange = true
    ∧ f.occupant? r = none ∧ f.isLocked r = false := by
  simp [free, mem_registers, isEmpty, and_assoc]

end RegisterFile

namespace ValueStore

theorem get?_modify (s : ValueStore) (v w : ValueId) (f : Value → Value) :
    (s.modify v f).get? w = if w = v then (s.get? v).map f else s.get? w := by
  simp only [modify, get?, Array.getElem?_modify]
  by_cases same : w = v
  · simp [same]
  · have : v.index ≠ w.index := by
      intro eq
      exact same (by cases v; cases w; simp_all)
    simp [same, this]

theorem map_get?_modify (s : ValueStore) (v w : ValueId) {f : Value → Value} (g : Value → β)
    (kept : ∀ value, g (f value) = g value) : ((s.modify v f).get? w).map g = (s.get? w).map g := by
  rw [get?_modify]
  by_cases same : w = v
  · subst same
    cases s.get? w with
    | none => simp
    | some value => simp [kept]
  · simp [same]

theorem get?_touch (s : ValueStore) (v w : ValueId) : (s.touch v).get? w
      = if w = v then (s.get? v).map ({ · with lastTouched := s.clock + 1 }) else s.get? w :=
  get?_modify _ v w _

theorem map_get?_touch (s : ValueStore) (v w : ValueId) (g : Value → β)
    (kept : ∀ value time, g { value with lastTouched := time } = g value) :
    ((s.touch v).get? w).map g = (s.get? w).map g :=
  map_get?_modify _ v w g fun value => kept value _

end ValueStore

def Frames.withSize (f : Frames) (frame : FrameId) (size : Nat) : Frames :=
  { f with sizes := f.sizes.setIfInBounds frame.index size }

theorem Frames.size?_withSize {f : Frames} (known : f.size? frame = some old) (size : Nat)
    (other : FrameId) :
    (f.withSize frame size).size? other = if other = frame then some size else f.size? other := by
  have bound : frame.index < f.sizes.size := (Array.getElem?_eq_some_iff.mp known).1
  by_cases same : other = frame
  · simp [withSize, size?, same, bound]
  · have : frame.index ≠ other.index := by
      intro eq
      exact same (by cases frame; cases other; simp_all)
    simp [withSize, size?, same, this]

def Instr.isRemark : Instr → Bool
  | .comment _ => true
  | .location _ _ _ => true
  | _ => false

/-- The instruction is a remark; a place that it gives is the place of a value. -/
structure Context.Notes (c : Context) (i : Instr) : Prop where
  remark : i.isRemark = true
  place : ∀ {name pos frame}, i = .location name pos frame →
    frame = pos.slot?.bind StackSlot.frame?
      ∧ ∃ v value, c.values.get? v = some value ∧ value.position = some pos

theorem Context.Notes.of_values {c d : Context} {i : Instr} (notes : c.Notes i)
    (same : d.values = c.values) : d.Notes i :=
  ⟨notes.remark, fun is_location => same ▸ notes.place is_location⟩

def Context.pushed (c : Context) (i : Instr) : Context := { c with code := c.code.push i }

def Context.appended (c : Context) (instrs : List Instr) : Context :=
  { c with code := c.code ++ instrs }

def Context.withLock (c : Context) (r : Register) (locked : Bool) : Context :=
  { c with registers := c.registers.setLocked r locked }

/-- The registers of the later context hold only what they held. -/
abbrev Context.Sheds (c c' : Context) : Prop :=
  ∀ {r v}, c'.registers.occupant? r = some v → c.registers.occupant? r = some v

def Context.Vacant (c : Context) : Prop := ∀ r, c.registers.occupant? r = none

namespace Context.Vacant
variable {c c' : Context} (vacant : c.Vacant)
include vacant

theorem allOccupied : c.registers.allOccupied = [] := by
  refine List.eq_nil_iff_forall_not_mem.mpr fun pair member => ?_
  rw [RegisterFile.mem_allOccupied, vacant] at member
  cases member

theorem of_shrinks (shrinks : c.Sheds c') : c'.Vacant := by
  intro r
  cases occupied : c'.registers.occupant? r with
  | none => rfl
  | some v => cases (vacant r).symm.trans (shrinks occupied)

theorem withLock (r : Register) (locked : Bool) : (c.withLock r locked).Vacant := by
  intro q
  simpa [Context.withLock] using vacant q

end Context.Vacant

theorem Context.locked_restored {c c1 : Context}
    (same : c1.registers.locked = (c.withLock r true).registers.locked) :
    (c1.withLock r (c.registers.isLocked r)).registers.locked = c.registers.locked := by
  simp only [Context.withLock, RegisterFile.setLocked, RegisterFile.isLocked] at same ⊢
  rw [same, RegisterSet.put_put_contains]

/-- Memory for `size` bytes, at least one, is handed out at a position. -/
inductive Context.Hands (c : Context) (size : Nat) : Position → Context → Prop
  | slot {frame : FrameId} {offset : Nat} (current : c.currentFrame = some frame)
      (known : c.frames.size? frame = some offset)
      (fits : offset + alignUp (max size 1) wordSize ≤ maxFrameSize) :
      Hands c size (.stack (.inFrame frame offset))
        { c with frames := c.frames.withSize frame (offset + alignUp (max size 1) wordSize) }
  | static {offset : Nat} (after : c.statics.used ≤ offset) :
      Hands c size (.static offset) { c with statics := ⟨offset + max size 1⟩ }
  | blob :
      Hands c size (.constant ⟨c.constants.blobs.size⟩)
        { c with constants :=
            ⟨c.constants.blobs.push (List.replicate (alignUp (max size 1) wordSize) 0)⟩ }

theorem Context.Hands.values {c c' : Context} (hands : c.Hands size pos c') :
    c'.values = c.values := by
  cases hands <;> rfl

theorem le_alignUp (n : Nat) (positive : 0 < align) : n ≤ alignUp n align := by
  have := Nat.div_add_mod (n + (align - 1)) align
  have := Nat.mod_lt (n + (align - 1)) positive
  have : (n + (align - 1)) / align * align = align * ((n + (align - 1)) / align) := Nat.mul_comm _ _
  rw [alignUp]
  omega

namespace Gen

section
variable {ε σ ι : Type} {c c' : σ} {x : ExceptT ε (StateM σ) α} {a : α}

def outcome (x : ExceptT ε (StateM σ) α) (c : σ) : Except ε α × σ := x.run.run c

/-- The step ends normally, gives `a` and leaves `c'`. -/
def Runs (x : ExceptT ε (StateM σ) α) (c : σ) (a : α) (c' : σ) : Prop :=
  outcome x c = (.ok a, c')

theorem outcome_bind (x : ExceptT ε (StateM σ) α) (f : α → ExceptT ε (StateM σ) β) (c : σ) :
    outcome (x >>= f) c =
    match outcome x c with
    | (.ok a, c1) => outcome (f a) c1
    | (.error e, c1) => (.error e, c1) := by
  change (match outcome x c with | (r, c1) => (ExceptT.bindCont f r).run c1) = _
  rcases outcome x c with ⟨_ | a, c1⟩ <;> rfl

theorem outcome_get (f : σ → ExceptT ε (StateM σ) α) (c : σ) :
    outcome (get >>= f) c = outcome (f c) c := rfl

@[simp] theorem runs_bind {f : α → ExceptT ε (StateM σ) β} {b : β} :
    Runs (x >>= f) c b c' ↔ ∃ a c1, Runs x c a c1 ∧ Runs (f a) c1 b c' := by
  simp only [Runs, outcome_bind]
  rcases outcome x c with ⟨_ | a, c1⟩
  · simp
  · simp

@[simp] theorem runs_pure {b : α} :
    Runs (pure a : ExceptT ε (StateM σ) α) c b c' ↔ b = a ∧ c' = c := by
  constructor
  · intro run
    cases run
    exact ⟨rfl, rfl⟩
  · rintro ⟨rfl, rfl⟩
    rfl

@[simp] theorem runs_discard {u : Unit} : Runs (discard x) c u c' ↔ ∃ a, Runs x c a c' := by
  have unfolded : discard x = x >>= fun _ => pure () := rfl
  rw [unfolded, runs_bind]
  simp only [runs_pure]
  constructor
  · rintro ⟨a, c1, run, -, rfl⟩
    exact ⟨a, run⟩
  · rintro ⟨a, run⟩
    exact ⟨a, c', run, trivial, rfl⟩

@[simp] theorem runs_map {f : α → β} {b : β} :
    Runs (f <$> x) c b c' ↔ ∃ a, Runs x c a c' ∧ b = f a := by
  have unfolded : f <$> x = x >>= fun a => pure (f a) := rfl
  rw [unfolded, runs_bind]
  simp only [runs_pure]
  constructor
  · rintro ⟨a, c1, run, rfl, rfl⟩
    exact ⟨a, run, rfl⟩
  · rintro ⟨a, run, rfl⟩
    exact ⟨a, c', run, rfl, rfl⟩

@[simp] theorem runs_get {a : σ} : Runs (get : ExceptT ε (StateM σ) σ) c a c' ↔ a = c ∧ c' = c := by
  constructor
  · intro run
    cases run
    exact ⟨rfl, rfl⟩
  · rintro ⟨rfl, rfl⟩
    rfl

theorem runs_get_bind {f : σ → ExceptT ε (StateM σ) α} :
    Runs (get >>= f) c a c' ↔ Runs (f c) c a c' := Iff.rfl

@[simp] theorem runs_modify {f : σ → σ} {u : Unit} :
    Runs (modify f : ExceptT ε (StateM σ) Unit) c u c' ↔ c' = f c := by
  constructor
  · intro run
    cases run
    rfl
  · rintro rfl
    rfl

@[simp] theorem runs_throw {fault : ε} :
    Runs (throw fault : ExceptT ε (StateM σ) α) c a c' ↔ False := by
  constructor
  · intro run
    cases run
  · exact False.elim

theorem runs_ite {p : Prop} [Decidable p] {y : ExceptT ε (StateM σ) α} :
    Runs (if p then x else y) c a c' ↔ (p ∧ Runs x c a c') ∨ (¬p ∧ Runs y c a c') := by
  by_cases h : p <;> simp [h]

theorem runs_ite_then {p : Prop} [Decidable p] {x : ExceptT ε (StateM σ) Unit}
    {f : ExceptT ε (StateM σ) α} : Runs (if p then x >>= fun _ => f else f) c a c'
      ↔ ∃ u c1, Runs (if p then x else pure ()) c u c1 ∧ Runs f c1 a c' := by
  by_cases h : p <;> simp [h]

@[simp] theorem runs_forIn_nil
    {f : ι → PUnit → ExceptT ε (StateM σ) (ForInStep PUnit)} {u b : PUnit} :
    Runs (forIn [] u f) c b c' ↔ c' = c := by
  rw [List.forIn_nil, runs_pure]
  simp

/-- A judgement on steps that a step can begin holds of a loop if it holds of stopping. -/
theorem forIn_rule {κ : Type} {P : κ → Gen PUnit → Prop} {f : ι → PUnit → Gen (ForInStep PUnit)}
    (stop : ∀ c u, P c (pure u)) (turn : ∀ c x u {g}, (∀ s c', P c' (g s)) → P c (f x u >>= g))
    (xs : List ι) (c : κ) (u : PUnit) : P c (forIn xs u f) := by
  induction xs generalizing c u with
  | nil => exact stop c u
  | cons x rest ih =>
    rw [List.forIn_cons]
    refine turn c x u fun s c1 => ?_
    cases s with
    | done u => exact stop c1 u
    | yield u => exact ih c1 u

theorem forIn_invariant {f : ι → PUnit → ExceptT ε (StateM σ) (ForInStep PUnit)}
    (P : List ι → σ → Prop) (round : ∀ x rest c step c1, P (x :: rest) c → Runs (f x ⟨⟩) c step c1 →
      step = .yield ⟨⟩ ∧ P rest c1)
    {xs : List ι} {b : PUnit} (start : P xs c) (run : Runs (forIn xs ⟨⟩ f) c b c') : P [] c' := by
  induction xs generalizing c with
  | nil =>
    rw [runs_forIn_nil] at run
    exact run ▸ start
  | cons x rest ih =>
    rw [List.forIn_cons, runs_bind] at run
    obtain ⟨step, c1, first, tail⟩ := run
    obtain ⟨rfl, next⟩ := round x rest c step c1 start first
    exact ih next tail

end

section
variable {c c' : Context} {u : Unit} {a : α}

@[simp] theorem runs_inconsistent {cause : Inconsistency} :
    Runs (inconsistent cause) c a c' ↔ False := runs_throw

@[simp] theorem runs_unsupported {cause : Unsupported} :
    Runs (unsupported cause) c a c' ↔ False := runs_throw

@[simp] theorem runs_rejected {cause : Rejection} :
    Runs (rejected loc cause) c a c' ↔ False := runs_throw

@[simp] theorem runs_emit {i : Instr} : Runs (emit i) c u c' ↔ c' = c.pushed i := runs_modify

@[simp] theorem runs_setLocation :
    Runs (setLocation loc) c u c' ↔ c' = { c with loc } := runs_modify

@[simp] theorem runs_record {f : Statistics → Statistics} :
    Runs (record f) c u c' ↔ c' = { c with statistics := f c.statistics } := runs_modify

@[simp] theorem runs_valueOf :
    Runs (valueOf v) c value c' ↔ c.values.get? v = some value ∧ c' = c := by
  rw [valueOf, runs_get_bind]
  constructor
  · intro run
    split at run
    · next found =>
      obtain ⟨rfl, rfl⟩ := runs_pure.mp run
      exact ⟨found, rfl⟩
    · exact (runs_throw.mp run).elim
  · rintro ⟨found, rfl⟩
    rw [found]
    exact runs_pure.mpr ⟨rfl, rfl⟩

theorem runs_valueOf_bind {f : Value → Gen α} :
    Runs (valueOf v >>= f) c a c' ↔ ∃ value, c.values.get? v = some value
    ∧ Runs (f value) c a c' := by
  simp only [runs_bind, runs_valueOf, and_assoc, exists_and_left, exists_eq_left]

theorem runs_found {f : Value → Gen α} (found : c.values.get? v = some value) :
    Runs (valueOf v >>= f) c a c' ↔ Runs (f value) c a c' := by
  simp only [runs_valueOf_bind, found, Option.some.injEq, exists_eq_left']

@[simp] theorem runs_updateValue {f : Value → Value} :
    Runs (updateValue v f) c u c' ↔ (∃ value, c.values.get? v = some value)
      ∧ c' = { c with values := c.values.modify v f } := by
  simp only [updateValue, runs_bind, runs_discard, runs_valueOf, runs_modify]
  constructor
  · rintro ⟨_, _, ⟨value, found, rfl⟩, rfl⟩
    exact ⟨⟨value, found⟩, rfl⟩
  · rintro ⟨⟨value, found⟩, rfl⟩
    exact ⟨(), c, ⟨value, found, rfl⟩, rfl⟩

@[simp] theorem runs_setPosition {pos : Option Position} :
    Runs (setPosition v pos) c u c' ↔ (∃ value, c.values.get? v = some value)
      ∧ c' = { c with values := c.values.modify v ({ · with position := pos }) } := runs_updateValue

@[simp] theorem runs_touch : Runs (touch v) c u c' ↔ (∃ value, c.values.get? v = some value)
      ∧ c' = { c with values := c.values.touch v } := by
  simp only [touch, runs_bind, runs_discard, runs_valueOf, runs_modify]
  constructor
  · rintro ⟨_, _, ⟨value, found, rfl⟩, rfl⟩
    exact ⟨⟨value, found⟩, rfl⟩
  · rintro ⟨⟨value, found⟩, rfl⟩
    exact ⟨(), c, ⟨value, found, rfl⟩, rfl⟩

theorem runs_consume (run : Runs (consume v) c left c') :
    ∃ value, c.values.get? v = some value ∧ value.references = left + 1
      ∧ c' = { c with values := c.values.modify v ({ · with references := left }) } := by
  rw [consume, runs_get_bind] at run
  split at run
  · next consumed =>
    simp only [runs_bind, runs_modify, runs_pure] at run
    obtain ⟨_, _, rfl, rfl, rfl⟩ := run
    simp only [ValueStore.consume] at consumed
    split at consumed
    · cases consumed
    · next value found =>
      split at consumed
      · cases consumed
      · next count =>
        cases consumed
        exact ⟨value, found, count, rfl⟩
  · exact (runs_throw.mp run).elim

theorem runs_comment {text : String} (run : Runs (comment text) c u c') :
    ∃ remarks : List Instr, (∀ i ∈ remarks, c.Notes i) ∧ c' = c.appended remarks := by
  rw [comment, runs_get_bind] at run
  rw [runs_ite] at run
  rcases run with ⟨_, run⟩ | ⟨_, run⟩
  · refine ⟨[.comment text], ?_, by simp [runs_emit.mp run, Context.pushed, Context.appended]⟩
    rw [List.forall_mem_singleton]
    exact ⟨rfl, nofun⟩
  · exact ⟨[], by simp, by simp [(runs_pure.mp run).2, Context.appended]⟩

theorem runs_setHome {named : Named} (run : Runs (setHome v named home) c u c') :
    home.isRegister = false ∧ named.home = none ∧ (∃ value, c.values.get? v = some value)
      ∧ c' = { c with values :=
          c.values.modify v (·.mapNamed fun _ => { named with home := some home }) } := by
  simp only [setHome, Named.setHome] at run
  by_cases register : home.isRegister = true
  · simp [register] at run
  · cases none_yet : named.home with
    | some _ => simp [register, none_yet] at run
    | none =>
      simp only [register, Bool.false_eq_true, ↓reduceIte, none_yet, runs_updateValue] at run
      exact ⟨by simpa using register, rfl, run⟩

theorem runs_currentFrame (run : Runs currentFrame c frame c') :
    c.currentFrame = some frame ∧ c' = c := by
  rw [currentFrame, runs_get_bind] at run
  split at run
  · next known =>
    obtain ⟨rfl, rfl⟩ := runs_pure.mp run
    exact ⟨known, rfl⟩
  · exact (runs_inconsistent.mp run).elim

theorem runs_allocateSlot {slot : StackSlot} (run : Runs (allocateSlot size) c slot c') :
    c.Hands size (.stack slot) c' := by
  simp only [allocateSlot, runs_bind, runs_get, and_assoc, exists_and_left, exists_eq_left] at run
  obtain ⟨frame, c1, current, run⟩ := run
  obtain ⟨known, same⟩ := runs_currentFrame current
  rw [same] at run
  simp only [Frames.allocate] at run
  cases size_eq : c.frames.size? frame with
  | none => simp [size_eq] at run
  | some offset =>
    simp only [size_eq] at run
    by_cases large : maxFrameSize < offset + alignUp (max size 1) wordSize
    · simp [large] at run
    · simp only [large, ↓reduceIte, runs_bind, runs_modify, runs_pure] at run
      obtain ⟨_, _, rfl, rfl, rfl⟩ := run
      exact .slot known size_eq (by omega)

theorem runs_allocateStatic {offset : Nat} (run : Runs (allocateStatic size align) c offset c') :
    c.Hands size (.static offset) c' := by
  simp only [allocateStatic, runs_get_bind, StaticSegment.allocate] at run
  by_cases fits : alignUp c.statics.used (min (max align 1) wordSize) + max size 1 < wordLimit
  · simp only [fits, ↓reduceIte, runs_bind, runs_modify, runs_pure] at run
    obtain ⟨_, _, rfl, rfl, rfl⟩ := run
    exact .static (le_alignUp _ (by simp [wordSize]))
  · simp [fits] at run

theorem runs_markLocation (run : Runs (markLocation v) c u c') :
    ∃ remarks : List Instr, (∀ i ∈ remarks, c.Notes i) ∧ c' = c.appended remarks := by
  have nothing : ∃ remarks : List Instr, (∀ i ∈ remarks, c.Notes i) ∧ c = c.appended remarks :=
    ⟨[], by simp, by simp [Context.appended]⟩
  simp only [markLocation, runs_bind, runs_get, and_assoc, exists_and_left, exists_eq_left] at run
  rw [runs_ite] at run
  rcases run with ⟨_, run⟩ | ⟨_, run⟩
  · obtain ⟨value, found, run⟩ := runs_valueOf_bind.mp run
    split at run
    · next named pos _ at_position =>
      refine ⟨[.location named.name pos (pos.slot?.bind StackSlot.frame?)], ?_,
        by simp [runs_emit.mp run, Context.pushed, Context.appended]⟩
      rw [List.forall_mem_singleton]
      refine ⟨rfl, ?_⟩
      rintro _ _ _ ⟨⟩
      exact ⟨rfl, v, value, found, at_position⟩
    · exact (runs_pure.mp run).2 ▸ nothing
  · exact (runs_pure.mp run).2 ▸ nothing

@[simp] theorem runs_occupantOf {occupant : Option ValueId} : Runs (occupantOf r) c occupant c' ↔
      r.inRange = true ∧ occupant = c.registers.occupant? r ∧ c' = c := by
  simp only [occupantOf, runs_bind, runs_get, RegisterFile.occupant, and_assoc, exists_and_left,
    exists_eq_left]
  constructor
  · intro run
    by_cases range : r.inRange = true
    · simp only [range, ↓reduceIte] at run
      obtain ⟨rfl, rfl⟩ := runs_pure.mp run
      exact ⟨range, rfl, rfl⟩
    · simp [range] at run
  · rintro ⟨range, rfl, rfl⟩
    simp [range]

theorem runs_occupantOf_bind {f : Option ValueId → Gen α} :
    Runs (occupantOf r >>= f) c a c' ↔ r.inRange = true
    ∧ Runs (f (c.registers.occupant? r)) c a c' := by
  simp only [runs_bind, runs_occupantOf, and_assoc, exists_and_left, exists_eq_left]

theorem runs_fileBind (run : Runs (fileBind r v) c u c') :
    r.inRange = true ∧ c.registers.occupant? r = none
      ∧ c' = { c with registers := c.registers.setOccupant r (some v) } := by
  simp only [fileBind, runs_bind, runs_get, RegisterFile.bind, and_assoc, exists_and_left,
    exists_eq_left] at run
  by_cases range : r.inRange = true
  · cases empty : c.registers.occupant? r with
    | some _ => simp [range, empty] at run
    | none =>
      simp only [range, Bool.not_true, Bool.false_eq_true, ↓reduceIte, empty, runs_modify] at run
      exact ⟨range, rfl, run⟩
  · simp [range] at run

theorem runs_fileUnbind (run : Runs (fileUnbind r) c v c') :
    r.inRange = true ∧ c.registers.occupant? r = some v
      ∧ c' = { c with registers := c.registers.setOccupant r none } := by
  simp only [fileUnbind, runs_bind, runs_get, RegisterFile.unbind, and_assoc, exists_and_left,
    exists_eq_left] at run
  by_cases range : r.inRange = true
  · cases held : c.registers.occupant? r with
    | none => simp [range, held] at run
    | some w =>
      simp only [range, Bool.not_true, Bool.false_eq_true, ↓reduceIte, held, runs_bind, runs_modify,
        runs_pure] at run
      obtain ⟨_, _, rfl, rfl, rfl⟩ := run
      exact ⟨range, rfl, rfl⟩
  · simp [range] at run

theorem runs_bindRegister (run : Runs (bindRegister r v) c u c') :
    ∃ value, c.values.get? v = some value ∧ value.ty.bank = r.bank ∧ value.register? = none
      ∧ r.inRange = true ∧ c.registers.occupant? r = none
      ∧ ∃ remarks : List Instr, (∀ i ∈ remarks, c'.Notes i)
        ∧ c' = { c with
            registers := c.registers.setOccupant r (some v)
            values :=
              (c.values.modify v ({ · with position := some (.register r) })).touch v
            statistics := c.statistics.addRegister
            code := c.code ++ remarks } := by
  obtain ⟨value, found, run⟩ := runs_valueOf_bind.mp run
  obtain ⟨_, run⟩ | ⟨bank, run⟩ := runs_ite.mp run
  · simp at run
  cases owned : value.register? with
  | some q => simp [owned] at run
  | none =>
    simp only [owned, runs_bind, runs_setPosition, runs_touch, runs_record] at run
    obtain ⟨_, c1, bound, _, c2, ⟨_, rfl⟩, _, c3, ⟨_, rfl⟩, _, c4, rfl, marked⟩ := run
    obtain ⟨range, empty, rfl⟩ := runs_fileBind bound
    obtain ⟨remarks, only, rfl⟩ := runs_markLocation marked
    exact ⟨value, found, by simpa using bank, owned, range, empty, remarks,
      fun i member => (only i member).of_values rfl, rfl⟩

theorem runs_unbindRegister (run : Runs (unbindRegister r) c v c') :
    ∃ value, c.values.get? v = some value ∧ c.registers.occupant? r = some v
      ∧ r.inRange = true ∧ value.position = some (.register r) ∧ value.isDirty = false
      ∧ ∃ remarks : List Instr, (∀ i ∈ remarks, c'.Notes i)
        ∧ c' = { c with
            registers := c.registers.setOccupant r none
            values := c.values.modify v ({ · with position := value.home? })
            code := c.code ++ remarks } := by
  simp only [unbindRegister, runs_bind, runs_occupantOf, and_assoc, exists_and_left,
    exists_eq_left] at run
  obtain ⟨range, run⟩ := run
  cases held : c.registers.occupant? r with
  | none => simp [held] at run
  | some w =>
    simp only [held] at run
    obtain ⟨value, found, run⟩ := runs_valueOf_bind.mp run
    obtain ⟨_, run⟩ | ⟨pos, run⟩ := runs_ite.mp run
    · simp at run
    obtain ⟨_, run⟩ | ⟨clean, run⟩ := runs_ite.mp run
    · simp at run
    simp only [runs_bind, runs_discard, runs_setPosition] at run
    obtain ⟨_, c1, ⟨_, unbound⟩, _, c2, ⟨_, rfl⟩, run⟩ := run
    obtain ⟨_, _, rfl⟩ := runs_fileUnbind unbound
    obtain ⟨_, run⟩ | ⟨_, run⟩ := runs_ite.mp run
    · simp only [runs_bind, runs_pure] at run
      obtain ⟨_, c3, marked, rfl, rfl⟩ := run
      obtain ⟨remarks, only, rfl⟩ := runs_markLocation marked
      exact ⟨value, found, rfl, range, by simpa using pos, by simpa using clean, remarks,
        fun i member => (only i member).of_values rfl, rfl⟩
    · obtain ⟨rfl, rfl⟩ := runs_pure.mp run
      exact ⟨value, found, rfl, range, by simpa using pos, by simpa using clean, [], by simp,
        by simp⟩

theorem runs_chooseHome {ty : Ty} {storage : StorageClass}
    (run : Runs (homeOf.chooseHome ty storage) c home c') :
    c.Hands ty.size home c' ∧ home.isRegister = false
      ∧ (storage = .auto → ty.isConst = false → ∃ slot, home = .stack slot) := by
  unfold homeOf.chooseHome at run
  obtain ⟨read_only, run⟩ | ⟨_, run⟩ := runs_ite.mp run
  · simp only [runs_bind, runs_get, runs_modify, runs_pure, and_assoc, exists_and_left,
      exists_eq_left] at run
    obtain ⟨rfl, _, _, rfl, rfl⟩ := run
    exact ⟨.blob, rfl, fun auto mutable => by simp [auto, mutable] at read_only⟩
  obtain ⟨static, run⟩ | ⟨_, run⟩ := runs_ite.mp run
  · simp only [runs_bind, runs_pure] at run
    obtain ⟨offset, c1, run, rfl, rfl⟩ := run
    exact ⟨runs_allocateStatic run, rfl, fun auto _ => by simp [auto] at static⟩
  · simp only [runs_bind, runs_pure] at run
    obtain ⟨slot, c1, run, rfl, rfl⟩ := run
    exact ⟨runs_allocateSlot run, rfl, fun _ _ => ⟨slot, rfl⟩⟩

theorem runs_homeOf (run : Runs (homeOf v) c home c') :
    ∃ value named, c.values.get? v = some value ∧ value.named? = some named
      ∧ (named.home = some home ∧ c' = c
        ∨ named.home = none ∧ home.isRegister = false
          ∧ (named.storage = .auto → value.ty.isConst = false → ∃ slot, home = .stack slot)
          ∧ ∃ c1, c.Hands value.ty.size home c1
            ∧ c' = { c1 with values :=
                c1.values.modify v (·.mapNamed fun _ => { named with home := some home }) }) := by
  obtain ⟨value, found, run⟩ := runs_valueOf_bind.mp run
  cases is_named : value.named? with
  | none => simp [is_named] at run
  | some named =>
    refine ⟨value, named, found, is_named, ?_⟩
    cases fixed : named.home with
    | some old =>
      simp only [is_named, fixed, runs_pure] at run
      exact .inl ⟨by rw [run.1], run.2⟩
    | none =>
      simp only [is_named, fixed, runs_bind, runs_pure] at run
      obtain ⟨_, c1, chosen, _, c2, set, rfl, rfl⟩ := run
      obtain ⟨hands, memory, slot⟩ := runs_chooseHome chosen
      obtain ⟨_, _, _, rfl⟩ := runs_setHome set
      exact .inr ⟨rfl, memory, slot, c1, hands, rfl⟩

theorem home?_of_homeOf (run : Runs (homeOf v) c home c') :
    ∃ value, c'.values.get? v = some value ∧ value.home? = some home := by
  obtain ⟨value, named, found, is_named, ⟨fixed, rfl⟩ | ⟨_, _, _, c1, hands, rfl⟩⟩ :=
    runs_homeOf run
  · exact ⟨value, found, by simp [Value.home?, is_named, fixed]⟩
  · rw [← hands.values] at found
    refine ⟨_, by rw [ValueStore.get?_modify, if_pos rfl, found]; rfl, ?_⟩
    cases h : value.kind <;> simp only [Value.named?, h] at is_named <;> cases is_named
    simp [Value.mapNamed, h, Value.home?, Value.named?]

theorem runs_holding {block : Gen α} :
    Runs (holding r block) c a c' ↔ ∃ c1, Runs block (c.withLock r true) a c1
      ∧ c' = c1.withLock r (c.registers.isLocked r) := by
  have unfolded : outcome (holding r block) c
      = match outcome block (c.withLock r true) with
        | (result, c1) => (result, c1.withLock r (c.registers.isLocked r)) := rfl
  simp only [Runs, unfolded]
  rcases outcome block (c.withLock r true) with ⟨result, c1⟩
  simp only [Prod.mk.injEq]
  constructor
  · rintro ⟨rfl, rfl⟩
    exact ⟨c1, ⟨rfl, rfl⟩, rfl⟩
  · rintro ⟨_, ⟨rfl, rfl⟩, rfl⟩
    exact ⟨rfl, rfl⟩

theorem runs_spill (run : Runs (spill v r) c u c') :
    ∃ value slot c1 w, c.values.get? v = some value ∧ c.Hands value.ty.size (.stack slot) c1
      ∧ r.inRange = true ∧ c.registers.occupant? r = some w
      ∧ c' = { c1 with
          registers := c1.registers.setOccupant r none
          values := c1.values.modify v ({ · with position := some (.stack slot) })
          code := c1.code.push (.storeStack r slot value.ty.size.toUInt8)
          statistics := c1.statistics.addSpill } := by
  simp only [spill, runs_bind, runs_valueOf, runs_emit, runs_discard, runs_setPosition, runs_record,
    and_assoc, exists_and_left, exists_eq_left] at run
  obtain ⟨value, found, slot, c1, allocated, _, _, c2, ⟨w, unbound⟩, _, _, rfl⟩ := run
  have hands := runs_allocateSlot allocated
  obtain ⟨range, occupied, rfl⟩ := runs_fileUnbind unbound
  have same : c1.registers = c.registers := by cases hands; rfl
  exact ⟨value, slot, c1, w, found, hands, range, same ▸ occupied, rfl⟩

theorem runs_moveOccupant {source target : Register}
    (run : Runs (moveOccupant source target) c u c') :
    ∃ v value, c.registers.occupant? source = some v ∧ c.values.get? v = some value
      ∧ source.inRange = true ∧ target.inRange = true
      ∧ (c.registers.setOccupant source none).occupant? target = none
      ∧ ∃ remarks : List Instr, (∀ i ∈ remarks, c'.Notes i)
        ∧ c' = { c with
            registers := (c.registers.setOccupant source none).setOccupant target (some v)
            values := (c.values.modify v ({ · with position := some (.register target) })).touch v
            code := c.code.push (.mov target source) ++ remarks } := by
  simp only [moveOccupant, runs_bind, runs_occupantOf, and_assoc, exists_and_left,
    exists_eq_left] at run
  obtain ⟨range, run⟩ := run
  cases occupied : c.registers.occupant? source with
  | none => simp [occupied] at run
  | some v =>
    simp only [occupied, runs_bind, runs_emit, runs_discard, runs_setPosition, runs_touch] at run
    obtain ⟨_, _, rfl, _, _, ⟨_, unbound⟩, _, _, bound, _, _, ⟨⟨value, found⟩, rfl⟩, _, _, ⟨_, rfl⟩,
      marked⟩ := run
    obtain ⟨_, _, rfl⟩ := runs_fileUnbind unbound
    obtain ⟨range', empty, rfl⟩ := runs_fileBind bound
    obtain ⟨remarks, only, rfl⟩ := runs_markLocation marked
    exact ⟨v, value, rfl, found, range, range', empty, remarks,
      fun i member => (only i member).of_values rfl, rfl⟩

theorem runs_obtainRegister (run : Runs (obtainRegister bank) c r c') :
    (c.choose bank = .ok (.free r) ∧ c' = c)
    ∨ (c.choose bank = .ok (.drop r) ∧ ∃ v, Runs (unbindRegister r) c v c')
    ∨ (c.choose bank = .ok (.evict r) ∧ ∃ scratch : Gen Register,
      (∀ {c1 q c2}, Runs scratch c1 q c2 →
          c1.registers.unlockedCount < c.registers.unlockedCount
          ∧ Runs (obtainRegister .int) c1 q c2)
        ∧ Runs (vacateVia scratch r) c () c') := by
  have unfolded : outcome (obtainRegister bank) c = obtainFrom bank c := rfl
  rw [Runs, unfolded, obtainFrom] at run
  split at run
  · cases run
  · next q chosen =>
    cases run
    exact .inl ⟨chosen, rfl⟩
  · next q chosen =>
    have steps : Runs (do discard (unbindRegister q); return q : Gen Register) c r c' := run
    simp only [runs_bind, runs_discard, runs_pure] at steps
    obtain ⟨_, c1, ⟨v, unbound⟩, rfl, rfl⟩ := steps
    exact .inr (.inl ⟨chosen, v, unbound⟩)
  · next q chosen =>
    let scratch : Gen Register := fun inner =>
      if inner.registers.unlockedCount < c.registers.unlockedCount then obtainFrom .int inner
      else (.error (.failed (.inconsistent (.everyRegisterLocked .int))), inner)
    have steps : Runs (do vacateVia scratch q; return q : Gen Register) c r c' := run
    simp only [runs_bind, runs_pure] at steps
    obtain ⟨_, c1, vacated, rfl, rfl⟩ := steps
    refine .inr (.inr ⟨chosen, scratch, ?_, vacated⟩)
    intro c1 q' c2 taken
    have shape : outcome scratch c1
        = if c1.registers.unlockedCount < c.registers.unlockedCount then obtainFrom .int c1
          else (.error (.failed (.inconsistent (.everyRegisterLocked .int))), c1) := rfl
    rw [Runs, shape] at taken
    split at taken
    · next fewer => exact ⟨fewer, taken⟩
    · cases taken

theorem obtainRegister_induction {P : Bank → Context → Register → Context → Prop}
    (free : ∀ {bank c r}, c.choose bank = .ok (.free r) → P bank c r c)
    (drop : ∀ {bank c r v c'}, c.choose bank = .ok (.drop r) →
      Runs (unbindRegister r) c v c' → P bank c r c')
    (evict : ∀ {bank c r c'} {scratch : Gen Register}, c.choose bank = .ok (.evict r) →
      (∀ {c1 q c2}, Runs scratch c1 q c2 → P .int c1 q c2) → Runs (vacateVia scratch r) c () c' →
      P bank c r c') (run : Runs (obtainRegister bank) c r c') : P bank c r c' := by
  induction fuel : c.registers.unlockedCount using Nat.strongRecOn generalizing bank c r c' with
  | ind n ih =>
    subst fuel
    obtain ⟨chosen, rfl⟩ | ⟨chosen, v, unbound⟩ | ⟨chosen, scratch, inner, vacated⟩ :=
      runs_obtainRegister run
    · exact free chosen
    · exact drop chosen unbound
    · refine evict chosen (fun taken => ?_) vacated
      obtain ⟨fewer, run⟩ := inner taken
      exact ih _ fewer run rfl

end

end Gen

end RegisterBackend
