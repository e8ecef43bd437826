import RegisterBackend.Proofs.Transfer

/-!
Moving words into registers. `Reflects` says that machine and books agree on what the values hold,
and `Simulates` that code takes the machine from one such agreement to the next; `Mirrors` is the
agreement on words in plain contexts.
-/
namespace RegisterBackend

open Discipline Context MachineState RegisterFile Value

variable {c c' c1 : Context} {env : ValueId → Word} {hw : Hardware} {p : Placement}
  {s s' : MachineState} {v : ValueId} {value : Value} {r dst : Register}
  {imm w : Word} {ty source : Ty}

/-- Integers of one, two, four or eight bytes and truth values, without marks. -/
def Ty.isPlain : Ty → Bool
  | .bool => true
  | .int size _ => size == 1 || size == 2 || size == 4 || size == 8
  | _ => false

namespace Ty

section
variable (plain : ty.isPlain = true)
include plain

theorem eq_of_isPlain : ty = .bool ∨ ∃ size signed, ty = .int size signed := by
  cases ty with
  | bool => exact .inl rfl
  | int size signed => exact .inr ⟨size, signed, rfl⟩
  | _ => cases plain

theorem eq_bool_of_isBool (truth : ty.isBool = true) : ty = .bool := by
  obtain rfl | ⟨size, signed, rfl⟩ := eq_of_isPlain plain
  · rfl
  · cases truth

theorem registerSized_of_isPlain : ty.RegisterSized := by
  obtain rfl | ⟨size, signed, rfl⟩ := eq_of_isPlain plain
  · exact .inl rfl
  · simpa [isPlain, RegisterSized, Ty.size, or_assoc] using plain

theorem isInteger_of_isPlain : ty.isInteger = true := by
  obtain rfl | ⟨size, signed, rfl⟩ := eq_of_isPlain plain <;> rfl

theorem isFloat_of_isPlain : ty.isFloat = false := by
  obtain rfl | ⟨size, signed, rfl⟩ := eq_of_isPlain plain <;> rfl

theorem isPointer_of_isPlain : ty.isPointer = false := by
  obtain rfl | ⟨size, signed, rfl⟩ := eq_of_isPlain plain <;> rfl

theorem isArray_of_isPlain : ty.isArray = false := by
  obtain rfl | ⟨size, signed, rfl⟩ := eq_of_isPlain plain <;> rfl

theorem isVoid_of_isPlain : ty.isVoid = false := by
  obtain rfl | ⟨size, signed, rfl⟩ := eq_of_isPlain plain <;> rfl

theorem pointee?_of_isPlain : ty.pointee? = none := by
  obtain rfl | ⟨size, signed, rfl⟩ := eq_of_isPlain plain <;> rfl

theorem unqualified_of_isPlain : ty.unqualified = ty := by
  obtain rfl | ⟨size, signed, rfl⟩ := eq_of_isPlain plain <;> rfl

theorem bank_of_isPlain : ty.bank = .int := by
  rw [bank, isFloat_of_isPlain plain]
  rfl

theorem isScalar_of_isPlain : ty.isScalar = true := by
  simp [isScalar, isInteger_of_isPlain plain]

theorem fitsRegister_of_isPlain : ty.fitsRegister = true := by
  have sized := registerSized_of_isPlain plain
  simpa [fitsRegister, isArray_of_isPlain plain, isVoid_of_isPlain plain, RegisterSized,
    or_assoc] using sized

end

theorem regular_of_isPlain (plain : ty.isPlain = true) : ty.Regular :=
  fun _ => ⟨registerSized_of_isPlain plain, by simp [isFloat_of_isPlain plain]⟩

theorem canonicalBits_of_wider (plain : source.isPlain = true) (target : ty.isPlain = true)
    (integer : ty.isBool = true → source.isBool = true) (wider : source.size ≤ ty.size)
    (sign : ty.isSigned = source.isSigned) (canonical : source.canonicalBits w = w) :
    ty.canonicalBits w = w := by
  cases truth : ty.isBool with
  | true => rwa [eq_bool_of_isBool target truth, ← eq_bool_of_isBool plain (integer truth)]
  | false =>
    rw [canonicalBits_eq_narrow (registerSized_of_isPlain target) truth, sign]
    have low := Hardware.narrow_of_canonical (registerSized_of_isPlain plain) canonical
    rw [← low]
    exact narrow_narrow_of_le _ wider _

end Ty

/-- All that there is are integers in registers and in frames. -/
structure Context.IsPlain (c : Context) : Prop where
  ints : ∀ {v value}, c.values.get? v = some value → value.ty.isPlain = true
  canonical : ∀ {v value bits}, c.values.get? v = some value → value.constant? = some bits →
    value.ty.canonicalBits bits = bits
  isLocal : c.IsLocal
  homed : c.Homed
  statics : c.statics.used = 0
  blobs : c.constants.blobs = #[]

theorem Context.IsPlain.after (plain : c.IsPlain) (homed : c'.Homed)
    (leads : Leads c c') : c'.IsPlain where
  ints {v value'} found' := by
    obtain ⟨value, found, ages⟩ := leads.before found'
    rw [ages.ty]
    exact plain.ints found
  canonical {v value' bits} found' is_constant := by
    obtain ⟨value, found, ages⟩ := leads.before found'
    rw [ages.ty]
    rw [constant?_eq_of_nature ages.nature] at is_constant
    exact plain.canonical found is_constant
  isLocal := leads.isLocal plain.isLocal
  homed := homed
  statics := by rw [(leads.areas plain.isLocal).1, plain.statics]
  blobs := by rw [(leads.areas plain.isLocal).2, plain.blobs]

/-- What the values hold, and what else is true of all contexts on the way. -/
structure Realm where
  content : ValueId → Content
  lawful : Context → Prop
  after : ∀ {c c'}, lawful c → c'.Homed → Leads c c' → lawful c'

namespace Realm
variable {R : Realm}

def plain (env : ValueId → Word) : Realm := ⟨fun v => .word (env v), Context.IsPlain, .after⟩

def free (content : ValueId → Content) : Realm := ⟨content, fun _ => True, fun _ _ _ => trivial⟩

def put (R : Realm) (v : ValueId) (w : Word) : Realm :=
  { R with content := Function.update R.content v (.word w) }

theorem put_plain (env : ValueId → Word) (v : ValueId) (w : Word) :
    (plain env).put v w = plain (Function.update env v w) := by
  rw [put, plain, plain, Realm.mk.injEq]
  exact ⟨(Function.comp_update Content.word env v w).symm, rfl⟩

structure Words (R : Realm) (c : Context) (v : ValueId) (w : Word) : Prop where
  word : R.content v = .word w
  bank : ∀ {value}, c.values.get? v = some value → value.ty.bank = .int

theorem Words.after (words : R.Words c v w) (leads : Leads c c') : R.Words c' v w where
  word := words.word
  bank {value'} found' := by
    obtain ⟨value, found, ages⟩ := leads.before found'
    exact ages.ty ▸ words.bank found

end Realm

/-- If the value is a constant, it has the form that a register holds. -/
def Context.Settles (hw : Hardware) (c : Context) (v : ValueId) : Prop :=
  ∀ ⦃value bits⦄, c.values.get? v = some value → value.constant? = some bits →
    value.ty.RegisterSized ∧ hw.Canonical value.ty bits

/-- The machine holds what every value that has a position holds, where the books say. -/
structure Reflects (hw : Hardware) (p : Placement) (R : Realm) (c : Context) (s : MachineState) :
    Prop where
  homed : c.Homed
  lawful : R.lawful c
  tracks : Tracks hw p R.content c.books s
  constant : ∀ {v value bits}, c.values.get? v = some value → value.constant? = some bits →
    R.content v = .word bits

/-- In a plain context the machine holds a word for every value. -/
abbrev Mirrors (hw : Hardware) (p : Placement) (env : ValueId → Word) (c : Context)
    (s : MachineState) : Prop :=
  Reflects hw p (.plain env) c s

theorem Context.Settles.after (settles : c.Settles hw v)
    (leads : Leads c c') : c'.Settles hw v := by
  intro value' bits found' is_bits
  obtain ⟨value, found, ages⟩ := leads.before found'
  rw [ages.ty]
  exact settles found (constant?_eq_of_nature ages.nature ▸ is_bits)

namespace Reflects
variable {R : Realm}

section
variable (reflects : Reflects hw p R c s)
include reflects

theorem after (homed : c'.Homed) (leads : Leads c c')
    (tracks : Tracks hw p R.content c'.books s') : Reflects hw p R c' s' where
  homed := homed
  lawful := R.after reflects.lawful homed leads
  tracks := tracks
  constant {v value' bits} found' is_constant := by
    obtain ⟨value, found, ages⟩ := leads.before found'
    rw [constant?_eq_of_nature ages.nature] at is_constant
    exact reflects.constant found is_constant

theorem register (occupied : c.registers.occupant? r = some v)
    (word : R.content v = .word w) : s.registers r = w := by
  obtain ⟨_, _, _, _, _, held, _⟩ := reflects.tracks.held occupied
  exact Content.word.inj (held.symm.trans word)

theorem occupant? (found : c.values.get? v = some value)
    (at_r : value.register? = some r) : c.registers.occupant? r = some v :=
  reflects.tracks.owned (standing_books found) (position_of_register? at_r)

theorem relocks (relocks : c.Relocks c') : Reflects hw p R c' s := by
  refine reflects.after ?_ relocks.leads (relocks.books ▸ reflects.tracks)
  obtain ⟨_, rfl⟩ := relocks
  exact reflects.homed

theorem withLock (r : Register) (locked : Bool) : Reflects hw p R (c.withLock r locked) s :=
  reflects.relocks (c.relocks_withLock r locked)

end

end Reflects

namespace Mirrors

theorem intro (plain : c.IsPlain) (tracks : Tracks hw p (fun v => .word (env v)) c.books s)
    (constant : ∀ {v value bits}, c.values.get? v = some value →
      value.constant? = some bits → env v = bits) :
    Mirrors hw p env c s :=
  ⟨plain.homed, plain, tracks, fun found is_bits => congrArg Content.word (constant found is_bits)⟩

section
variable (mirrors : Mirrors hw p env c s)
include mirrors

theorem ints (found : c.values.get? v = some value) : value.ty.isPlain = true :=
  mirrors.lawful.ints found

theorem bits {bits : Word} (found : c.values.get? v = some value)
    (is_bits : value.constant? = some bits) : env v = bits :=
  Content.word.inj (mirrors.constant found is_bits)

theorem words (v : ValueId) : (Realm.plain env).Words c v (env v) :=
  ⟨rfl, fun found => Ty.bank_of_isPlain (mirrors.ints found)⟩

theorem settles (v : ValueId) : c.Settles hw v := by
  intro value bits found is_bits
  have plain := mirrors.ints found
  refine ⟨Ty.registerSized_of_isPlain plain, ?_⟩
  rw [Hardware.Canonical, Ty.bank_of_isPlain plain]
  exact mirrors.lawful.canonical found is_bits

theorem register_of_register? (found : c.values.get? v = some value)
    (at_r : value.register? = some r) : s.registers r = env v :=
  mirrors.register (mirrors.occupant? found at_r) rfl

theorem canonicalBits_eq (found : c.values.get? v = some value)
    (known : value.position.isSome ∨ value.isConstant = true) :
    value.ty.canonicalBits (env v) = env v := by
  rcases known with positioned | is_constant
  · have canonical : hw.Canonical value.ty (env v) :=
      mirrors.tracks.canonical (standing_books found) positioned rfl
    rwa [Hardware.Canonical, Ty.bank_of_isPlain (mirrors.ints found)] at canonical
  · obtain ⟨bits, is_bits⟩ := Option.isSome_iff_exists.mp is_constant
    rw [mirrors.bits found is_bits]
    exact mirrors.lawful.canonical found is_bits

end

end Mirrors

/-- The code written from `c` to `c'` takes the machine from `s` to `s'`. The values keep what they
hold, and nothing happens to locked registers. -/
structure Simulates (hw : Hardware) (p : Placement) (R : Realm) (c : Context)
    (s : MachineState) (c' : Context) (s' : MachineState) : Prop where
  executes : Executes hw p c s c' s'
  reflects : Reflects hw p R c' s'
  leads : Leads c c'
  locked : c'.registers.locked = c.registers.locked
  kept : ∀ {r}, c.registers.isLocked r = true →
    s'.registers r = s.registers r ∧ c'.registers.occupant? r = c.registers.occupant? r

namespace Simulates
variable {R : Realm} {s1 : MachineState}

theorem trans (first : Simulates hw p R c s c1 s1) (second : Simulates hw p R c1 s1 c' s') :
    Simulates hw p R c s c' s' where
  executes := first.executes.trans second.executes
  reflects := second.reflects
  leads := first.leads.trans second.leads
  locked := second.locked.trans first.locked
  kept {r} is_locked := by
    obtain ⟨content, occupant⟩ := first.kept is_locked
    have still : c1.registers.isLocked r = true := by
      rwa [RegisterFile.isLocked, first.locked]
    obtain ⟨content', occupant'⟩ := second.kept still
    exact ⟨content'.trans content, occupant'.trans occupant⟩

theorem of_books (reflects : Reflects hw p R c s)
    (walked : c'.Homed ∧ Leads c c' ∧ c'.registers.locked = c.registers.locked)
    (books : c'.books = c.books) (executes : Executes hw p c s c' s) :
    Simulates hw p R c s c' s where
  executes := executes
  reflects := reflects.after walked.1 walked.2.1 (books ▸ reflects.tracks)
  leads := walked.2.1
  locked := walked.2.2
  kept {r} _ := ⟨rfl, congrFun (congrArg Books.occupant books) r⟩

end Simulates

section
open Gen
variable {R : Realm} {u u' : Unit} {left : Nat} {dirty : Bool}

theorem touch_simulates (reflects : Reflects hw p R c s) (run : Runs (touch v) c u c') :
    Simulates hw p R c s c' s := by
  have walked := walks_touch (D := .homed) v _ _ reflects.homed run
  obtain ⟨_, rfl⟩ := runs_touch.mp run
  exact .of_books reflects walked (books_touch c v) (.of_code rfl)

theorem consume_simulates (reflects : Reflects hw p R c s)
    (run : Runs (consume v) c left c') : Simulates hw p R c s c' s := by
  have walked := walks_consume (D := .homed) v _ _ reflects.homed run
  obtain ⟨value, found, _, rfl⟩ := runs_consume run
  exact .of_books reflects walked (c.books_consume v left) (.of_code rfl)

theorem obtainRegister_simulates {bank : Bank} (reflects : Reflects hw p R c s)
    (run : Runs (obtainRegister bank) c r c') (separate : p.Separates c'.extent) :
    ∃ s', Simulates hw p R c s c' s' ∧ Obtains hw p bank c r c' := by
  have walked := walks_obtainRegister (D := .homed) bank _ _ reflects.homed run
  have obtained : Obtains hw p bank c r c' := obtainRegister_obtains run
  obtain ⟨s', ran, tracks, _, kept⟩ := obtained.room.carries reflects.tracks separate
  refine ⟨s', ⟨ran, reflects.after walked.1 walked.2.1 tracks, walked.2.1, walked.2.2,
    fun is_locked => ⟨kept is_locked, obtained.room.occupant ?_⟩⟩, obtained⟩
  simp [is_locked]

theorem canonicalize_executes (bank : r.bank = .int) (sized : ty.RegisterSized)
    (run : Runs (canonicalize r ty) c u c') (s : MachineState) (w : Word) :
    Executes hw p c (s.set r w) c' (s.set r (Word.narrow w ty.size ty.isSigned)) := by
  obtain ⟨instrs, rfl, _, ok⟩ := runs_canonicalize bank sized run
  refine .appended ?_
  rw [ok, registers_set, if_pos rfl, set_set]

theorem Mirrors.stack_of_position (mirrors : Mirrors hw p env c s) {pos : Position}
    (found : c.values.get? v = some value) (at_position : value.position = some pos)
    (memory : pos.isRegister = false) : ∃ slot, pos = .stack slot := by
  obtain ⟨cell, is_cell, inside⟩ :=
    mirrors.tracks.located (standing_books found) (.inl ⟨at_position, memory⟩)
  cases pos with
  | register _ => cases memory
  | stack slot => exact ⟨slot, rfl⟩
  | static offset =>
    cases is_cell
    simp [Cell.Inside, Context.books, Context.extent, mirrors.lawful.statics] at inside
  | constant id =>
    cases is_cell
    simp [Cell.Inside, Context.books, Context.extent, ConstantPool.get?,
      mirrors.lawful.blobs] at inside

def plainScene (hw : Hardware) (p : Placement) (env : ValueId → Word) (c : Context) : Scene :=
  ⟨hw, p, fun v => .word (env v), c.books, none, True⟩

theorem Mirrors.ready (mirrors : Mirrors hw p env c s) : (plainScene hw p env c).Ready c.books s :=
  ⟨mirrors.tracks, .refl _⟩

theorem Mirrors.supplies (mirrors : Mirrors hw p env c s) (found : c.values.get? v = some value) :
    (plainScene hw p env c).Supplies c v value where
  found := found
  constant is_bits := ⟨mirrors.constant found is_bits, Ty.isScalar_of_isPlain (mirrors.ints found),
    (mirrors.settles v found is_bits).2⟩
  knows _ found is_bits := mirrors.constant found is_bits
  calm _ := by
    refine ⟨(fun f is_frame => by cases is_frame), ?_⟩
    rintro ⟨st, place, standing, at_place, based⟩
    obtain rfl := Option.mem_unique (standing_books found) standing
    cases memory : place.isRegister with
    | true =>
      cases place with
      | register q => cases based
      | _ => cases memory
    | false =>
      obtain ⟨slot, rfl⟩ := mirrors.stack_of_position found at_place memory
      cases based

theorem Mirrors.moved (mirrors : Mirrors hw p env c s) (homed : c'.Homed)
    (moves : Moves (plainScene hw p env c) (some dst) (fun s t => t = s.set dst w) c c') :
    ∃ s1, Mirrors hw p env c' s1 ∧ c'.books = c.books ∧ Executes hw p c s c' (s1.set dst w) := by
  obtain ⟨s1, _, ran, rfl, ready, _⟩ := moves.carries mirrors.ready (.inl trivial)
  exact ⟨s1, mirrors.after homed moves.leads ready.tracks, (moves.tame trivial).books, ran⟩

def Realm.scene (hw : Hardware) (p : Placement) (R : Realm) (c : Context) : Scene :=
  ⟨hw, p, R.content, c.books, none, False⟩

/-- A register receives the word of a value; the code for that may empty others. -/
structure Loads (hw : Hardware) (p : Placement) (R : Realm) (c : Context)
    (s : MachineState) (r : Register) (w : Word) (c' : Context) (s1 : MachineState) : Prop where
  executes : Executes hw p c s c' (s1.set r w)
  reflects : Reflects hw p R c' s1
  recedes : Recedes (fun q => c.registers.isLocked q = false) c c'
  saving : Saving p c s.memory c' s1.memory
  kept : ∀ {q}, c.registers.isLocked q = true → s1.registers q = s.registers q

theorem loadValue_loads (reflects : Reflects hw p R c s) (words : R.Words c v w)
    (bank : dst.bank = .int) (run : Runs (loadValue dst v) c u c')
    (separate : p.Separates c'.extent) : ∃ s1, Loads hw p R c s dst w c' s1 := by
  obtain ⟨homed, _⟩ := walks_loadValue (D := .homed) dst v _ _ reflects.homed run
  obtain ⟨value, _, read, _⟩ := runs_bind.mp run
  obtain ⟨found, _⟩ := runs_valueOf.mp read
  have moves : Moves (R.scene hw p c) (some dst) _ c c' := loadValue_moves found words.word
    (fun bits is_bits => Content.word.inj (words.word.symm.trans (reflects.constant found is_bits)))
    (fun _ found is_bits => reflects.constant found is_bits) (fun quiet => quiet.elim)
    (bank.trans (words.bank found).symm) run
  obtain ⟨s1, _, ran, rfl, ready, kept, saving⟩ :=
    moves.carries ⟨reflects.tracks, .refl _⟩ (.inr separate)
  exact ⟨s1, ran, reflects.after homed moves.leads ready.tracks, moves.toRecedes, saving, kept⟩

section
variable (found : c.values.get? v = some value)
  (books : c'.books = ((c.books.without v).occupy r (some v)).put v
    { value.standing with position := some (.register r), dirty })
  (homed : c'.Homed) (leads : Leads c c') (room : ∀ u, c.registers.occupant? r = some u → u = v)
  (known : ∀ bits, value.constant? = some bits → w = bits)
  (backed : value.isNamed = true → dirty = true ∨ value.home?.isSome)
  (kept : dirty = false → ∀ home cell, value.home? = some home → home.cell? = some cell →
    hw.read value.ty s.memory (p.address cell) = .word w)
include found books homed leads room known backed kept

theorem Reflects.seat (reflects : Reflects hw p R c s) (bank : value.ty.bank = r.bank)
    (sized : value.ty.RegisterSized) (canonical : hw.Canonical value.ty w) :
    Reflects hw p (R.put v w) c' (s.set r w) := by
  have seated :=
    reflects.tracks.seat (standing_books found) room bank sized canonical dirty backed kept
  refine ⟨homed, R.after reflects.lawful homed leads, books ▸ seated,
    fun {u value' bits} found' is_bits => ?_⟩
  obtain ⟨old, before, ages⟩ := leads.before found'
  rw [constant?_eq_of_nature ages.nature] at is_bits
  by_cases here : u = v
  · subst here
    obtain rfl := Option.mem_unique before found
    exact (Function.update_self ..).trans (congrArg Content.word (known bits is_bits))
  · exact (Function.update_of_ne here ..).trans (reflects.constant before is_bits)

theorem Mirrors.seat (mirrors : Mirrors hw p env c s) (bank : r.bank = .int)
    (canonical : value.ty.canonicalBits w = w) :
    Mirrors hw p (Function.update env v w) c' (s.set r w) := by
  have plain := mirrors.ints found
  have is_int := Ty.bank_of_isPlain plain
  rw [Mirrors, ← Realm.put_plain]
  exact Reflects.seat found books homed leads room known backed kept mirrors
    (is_int.trans bank.symm)
    (Ty.registerSized_of_isPlain plain) (by rwa [Hardware.Canonical, is_int])

end

theorem Value.position_ne_of_outside {value : Value}
    (outside : value.register? = none) (q : Register) :
    value.standing.position ≠ some (.register q) := by
  intro at_q
  have pos : value.position = some (.register q) := at_q
  simp [Value.register?, pos, Position.register?] at outside

theorem bindRegister_books (reflects : Reflects hw p R c s) (found : c.values.get? v = some value)
    (run : Runs (bindRegister r v) c u c') :
    c'.books = ((c.books.without v).occupy r (some v)).put v
        { value.standing with position := some (.register r) }
      ∧ value.ty.bank = r.bank ∧ r.inRange = true ∧ value.register? = none
      ∧ c.registers.occupant? r = none ∧ c'.registers.occupant? r = some v
      ∧ (∀ {q}, q ≠ r → c'.registers.occupant? q = c.registers.occupant? q)
      ∧ ∀ t, Executes hw p c t c' t := by
  obtain ⟨_, found', bank, outside, range, empty, remarks, only, rfl⟩ := runs_bindRegister run
  obtain rfl := Option.mem_unique found found'
  refine ⟨?_, bank, range, outside, empty, ?_,
    fun {q} other => ?_, fun t => .remarks (fun i member => (only i member).remark) rfl⟩
  · rw [reflects.tracks.without_of_outside (standing_books found)
      (Value.position_ne_of_outside outside)]
    exact books_seated c.registers range found
  · exact (occupant?_setOccupant _ _ _ range).trans (if_pos rfl)
  · exact (occupant?_setOccupant _ _ _ range).trans (if_neg other)

theorem Value.isRegister_of_outside {place : Position} (outside : value.register? = none)
    (at_place : value.position = some place) : place.isRegister = false := by
  cases place with
  | register q => simp [Value.register?, at_place, Position.register?] at outside
  | _ => rfl

section
variable (reflects : Reflects hw p R c s) (words : R.Words c v w) (settles : c.Settles hw v)
include reflects words settles

theorem Reflects.canonical (found : c.values.get? v = some value)
    (loadable : value.IsLoadable) : hw.Canonical value.ty w := by
  obtain is_constant | ⟨place, at_place, _⟩ := loadable
  · obtain ⟨bits, is_bits⟩ := Option.isSome_iff_exists.mp is_constant
    have same : w = bits :=
      Content.word.inj (words.word.symm.trans (reflects.constant found is_bits))
    exact same ▸ (settles found is_bits).2
  · exact reflects.tracks.canonical (standing_books found)
      (by simp [Value.standing, at_place]) words.word

/-- A constant, or a value that the machine holds in memory, can be held in a register as well. -/
theorem Reflects.fits (found : c.values.get? v = some value) (loadable : value.IsLoadable)
    (outside : value.register? = none) :
    value.ty.RegisterSized ∧ (value.isNamed = true → value.home?.isSome)
      ∧ ∀ home cell, value.home? = some home → home.cell? = some cell →
        hw.read value.ty s.memory (p.address cell) = .word w := by
  have standing := standing_books found
  obtain is_constant | ⟨place, at_place, sized⟩ := loadable
  · obtain ⟨bits, is_bits⟩ := Option.isSome_iff_exists.mp is_constant
    have unnamed : value.named? = none := by
      cases kind : value.kind <;> simp_all [named?, Value.constant?]
    exact ⟨(settles found is_bits).1, by simp [isNamed, unnamed], by simp [Value.home?, unnamed]⟩
  · -- A variable comes from its home, which therefore has its word.
    have memory := isRegister_of_outside outside at_place
    have homed (is_named : value.isNamed = true) : value.home? = some place :=
      reflects.homed found is_named at_place memory
    refine ⟨sized memory, fun is_named => by simp [homed is_named],
      fun home cell at_home is_cell => ?_⟩
    have is_named : value.isNamed = true := by
      cases kind : value.kind <;> simp_all [Value.home?, named?, isNamed]
    obtain rfl := Option.mem_unique at_home (homed is_named)
    exact (reflects.tracks.current standing (.inl ⟨at_place, memory⟩) is_cell).trans words.word

omit reflects in
theorem Loads.bind {s1 : MachineState} (loads : Loads hw p R c s r w c1 s1)
    (unlocked : c.registers.isLocked r = false) (found : c.values.get? v = some value)
    (loadable : value.IsLoadable) (outside : value.register? = none)
    (bound : Runs (bindRegister r v) c1 u' c') :
    Simulates hw p R c s c' (s1.set r w) ∧ c'.registers.occupant? r = some v := by
  have reflects := loads.reflects
  have leads1 := loads.recedes.leads
  have walked := walks_bindRegister (D := .homed) trivial _ _ reflects.homed bound
  obtain ⟨value1, found1, ages⟩ := leads1.values found
  have constant := constant?_eq_of_nature ages.nature
  obtain ⟨books, bank, _, outside1, empty, occupied, others, quiet⟩ :=
    bindRegister_books reflects found1 bound
  have loadable1 : value1.IsLoadable := by
    rw [Value.IsLoadable, isConstant, constant, ages.ty]
    refine loadable.imp_right ?_
    rintro ⟨place, at_place, sized⟩
    obtain ⟨st, standing, at_place1⟩ := loads.saving.anchors (standing_books found) at_place
      (isRegister_of_outside outside at_place)
    obtain rfl := Option.mem_unique (standing_books found1) standing
    exact ⟨place, at_place1, sized⟩
  have words1 := words.after leads1
  have settles1 := settles.after leads1
  have canonical := reflects.canonical words1 settles1 found1 loadable1
  obtain ⟨sized, backed, kept⟩ := reflects.fits words1 settles1 found1 loadable1 outside1
  have seated := reflects.seat found1 books walked.1 walked.2.1 (by simp [empty])
    (fun bits is_bits =>
      Content.word.inj (words.word.symm.trans (reflects.constant found1 is_bits)))
    (fun is_named => .inr (backed is_named)) (fun _ => kept) bank sized canonical
  have same : R.put v w = R := by
    rw [Realm.put, ← words.word, Function.update_eq_self]
  rw [same] at seated
  refine ⟨⟨loads.executes.trans (quiet _), seated, leads1.trans walked.2.1,
    walked.2.2.trans loads.recedes.locked, fun {q} is_locked => ?_⟩, occupied⟩
  have other : q ≠ r := by
    rintro rfl
    simp [unlocked] at is_locked
  exact ⟨by simp [other, loads.kept is_locked], (others other).trans
    (loads.recedes.occupant (by simp [is_locked]))⟩

theorem obtainAndBind_simulates {c2 : Context} (found : c.values.get? v = some value)
    (outside : value.register? = none) (obtained : Runs (obtainRegister value.ty.bank) c r c1)
    (load : Runs (loadValue r v) c1 u c2) (bound : Runs (bindRegister r v) c2 u' c')
    (separate : p.Separates c'.extent) :
    ∃ s', Simulates hw p R c s c' s' ∧ c'.registers.occupant? r = some v := by
  have leads1 : Leads c1 c2 := .of_walks (walks_loadValue r v) load
  have leads2 : Leads c2 c' :=
    .of_walks (walks_bindRegister trivial) bound
  obtain ⟨s1, first, obtains⟩ :=
    obtainRegister_simulates reflects obtained (separate.mono (leads1.trans leads2).extent)
  have words1 := words.after first.leads
  obtain ⟨s2, loads⟩ := loadValue_loads first.reflects words1
    (obtains.bank.trans (words.bank found)) load (separate.mono leads2.extent)
  obtain ⟨value1, found1, _⟩ := first.leads.values found
  have outside1 : value1.register? = none := by
    -- Registers were only emptied since.
    cases at_q : value1.register? with
    | none => rfl
    | some q =>
      have before := obtains.room.shrinks (first.reflects.occupant? found1 at_q)
      have pos := (reflects.tracks.occupant_iff (standing_books found)).mp before
      have at_q : value.position = some (.register q) := pos
      simp [Value.register?, at_q, Position.register?] at outside
  obtain ⟨second, occupied⟩ := loads.bind words1 (settles.after first.leads)
    ((obtains.room.isLocked r).trans obtains.unlocked) found1
      (isLoadable_of_loadValue found1 load) outside1 bound
  exact ⟨_, first.trans second, occupied⟩

theorem variableRegister_simulates (run : Runs (variableRegister v) c r c')
    (separate : p.Separates c'.extent) :
    ∃ s', Simulates hw p R c s c' s' ∧ c'.registers.occupant? r = some v := by
  obtain ⟨value, found, run⟩ := runs_valueOf_bind.mp run
  cases at_register : value.register? with
  | some q =>
    simp only [at_register, runs_bind, runs_pure] at run
    obtain ⟨_, c1, touched, rfl, rfl⟩ := run
    refine ⟨s, touch_simulates reflects touched, ?_⟩
    obtain ⟨_, rfl⟩ := runs_touch.mp touched
    exact reflects.occupant? found at_register
  | none =>
    simp only [at_register, runs_bind, runs_pure] at run
    obtain ⟨q, c1, obtained, _, c2, load, _, c3, bound, rfl, rfl⟩ := run
    exact obtainAndBind_simulates reflects words settles found at_register obtained
      load bound separate

theorem useInRegister_simulates (run : Runs (useInRegister v) c r c')
    (separate : p.Separates c'.extent) :
    ∃ s', Simulates hw p R c s c' s' ∧ c'.registers.occupant? r = some v := by
  simp only [useInRegister_eq, runs_bind, runs_discard, runs_pure] at run
  obtain ⟨_, c1, taken, _, _, ⟨_, consumed⟩, rfl, rfl⟩ := run
  have last : Leads c1 c' := .of_walks (walks_consume v) consumed
  obtain ⟨s1, first, occupied⟩ :=
    variableRegister_simulates reflects words settles taken (separate.mono last.extent)
  refine ⟨s1, first.trans (consume_simulates first.reflects consumed), ?_⟩
  obtain ⟨_, _, _, rfl⟩ := runs_consume consumed
  exact occupied

end

theorem Gen.runs_holdingRegisterOf {α : Type} {block : Gen α} {a : α}
    (run : Runs (holdingRegisterOf v block) c a c') :
    ∃ c0 c1, c.Relocks c0 ∧ Runs block c0 a c1 ∧ c1.Relocks c'
      ∧ (∀ q, c.registers.isLocked q = true → c0.registers.isLocked q = true)
      ∧ ∀ {value q}, c.values.get? v = some value → value.position = some (.register q) →
        q.inRange = true → c0.registers.isLocked q = true := by
  obtain ⟨value, found, run⟩ := runs_valueOf_bind.mp run
  cases at_register : value.register? with
  | none =>
    rw [at_register] at run
    refine ⟨c, c', ⟨_, rfl⟩, run, ⟨_, rfl⟩, fun _ => id, fun found' at_q _ => ?_⟩
    obtain rfl := Option.mem_unique found found'
    simp [Value.register?, at_q, Position.register?] at at_register
  | some q =>
    rw [at_register] at run
    obtain ⟨c1, block_run, rfl⟩ := runs_holding.mp run
    refine ⟨_, c1, c.relocks_withLock q true, block_run, c1.relocks_withLock _ _,
      fun _ => isLocked_lock q, fun found' at_q range => ?_⟩
    obtain rfl := Option.mem_unique found found'
    cases (position_of_register? at_register).symm.trans at_q
    exact isLocked_lock_self _ range

/-- A register that holds nothing received the word of a value. Locked registers are left alone,
unless it is the value's own. -/
structure Copies (hw : Hardware) (p : Placement) (R : Realm) (v : ValueId) (w : Word) (c : Context)
    (s : MachineState) (r : Register) (c' : Context) (s' : MachineState) : Prop where
  executes : Executes hw p c s c' s'
  reflects : Reflects hw p R c' s'
  empty : c'.registers.occupant? r = none
  bank : r.bank = .int
  range : r.inRange = true
  content : s'.registers r = w
  canonical : c.Settles hw v → ∃ value, c.values.get? v = some value ∧ hw.Canonical value.ty w
  kept : ∀ {q}, c.registers.isLocked q = true → c.registers.occupant? q ≠ some v →
    q ≠ r ∧ s'.registers q = s.registers q ∧ c'.registers.occupant? q = c.registers.occupant? q
  saving : Saving p c s.memory c' s'.memory
  needed : ∀ {value}, c'.values.get? v = some value → value.isNeeded = true → value.position.isSome

theorem Copies.consume (copies : Copies hw p R v w c s r c1 s') {x : ValueId}
    (run : Runs (consume x) c1 left c') : Copies hw p R v w c s r c' s' := by
  have simulates := consume_simulates copies.reflects run
  obtain ⟨old, found1, used, rfl⟩ := runs_consume run
  refine { copies with
    executes := copies.executes.trans simulates.executes
    reflects := simulates.reflects
    saving := copies.saving.trans (.of_books simulates.leads (c1.books_consume x left))
    needed := fun found' is_needed => ?_ }
  rw [ValueStore.get?_modify] at found'
  split at found'
  · next same =>
    subst same
    rw [found1] at found'
    cases found'
    have before : old.isNeeded = true := by
      simp only [Value.isNeeded, Bool.or_eq_true, Bool.and_eq_true,
        decide_eq_true_eq] at is_needed ⊢
      exact is_needed.imp_right fun unnamed => ⟨unnamed.1, by omega⟩
    have positioned := copies.needed found1 before
    exact positioned
  · exact copies.needed found' is_needed

theorem copyToRegister_copies (reflects : Reflects hw p R c s) (words : R.Words c v w)
    (run : Runs (copyToRegister v) c r c') (separate : p.Separates c'.extent) :
    ∃ s', Copies hw p R v w c s r c' s' := by
  obtain ⟨value, found, run⟩ := runs_valueOf_bind.mp run
  obtain ⟨c0, c1, enter, block, leave, locks, own⟩ := runs_holdingRegisterOf run
  simp only [runs_bind, runs_pure] at block
  obtain ⟨q, c2, obtained, _, c3, load, rfl, rfl⟩ := block
  have leads : Leads c2 c1 := .of_walks (walks_loadValue r v) load
  have separate1 : p.Separates c1.extent := separate.mono fun area => by rw [leave.extent]
  have found0 : c0.values.get? v = some value := enter.values ▸ found
  have leads0 := enter.leads
  obtain ⟨s1, first, obtains⟩ := obtainRegister_simulates (reflects.relocks enter) obtained
    (separate1.mono leads.extent)
  have bank : r.bank = .int := obtains.bank.trans (words.bank found)
  have words2 := words.after (leads0.trans first.leads)
  obtain ⟨s2, loads⟩ := loadValue_loads first.reflects words2 bank load separate1
  have empty1 : c1.registers.occupant? r = none := by
    cases occupied : c1.registers.occupant? r with
    | none => rfl
    | some x => exact (loads.recedes.shrinks occupied).symm.trans obtains.empty
  have occupants (q : Register) : c'.registers.occupant? q = c1.registers.occupant? q :=
    congrFun (congrArg Books.occupant leave.books) q
  have reflects_set : Reflects hw p R c1 (s2.set r w) :=
    { loads.reflects with tracks := loads.reflects.tracks.set empty1 _ }
  have kept {q : Register} (is_locked : c0.registers.isLocked q = true) :
      q ≠ r ∧ (s2.set r w).registers q = s.registers q
        ∧ c'.registers.occupant? q = c.registers.occupant? q := by
    have is_locked2 : c2.registers.isLocked q = true := by
      rwa [RegisterFile.isLocked, first.locked]
    have other : q ≠ r := by
      rintro rfl
      simp [obtains.unlocked] at is_locked
    obtain ⟨content, occupant⟩ := first.kept is_locked
    refine ⟨other, ?_, ?_⟩
    · rw [registers_set, if_neg other, loads.kept is_locked2, content]
    · rw [occupants, loads.recedes.occupant (by simp [is_locked2]), occupant]
      exact congrFun (congrArg Books.occupant enter.books) q
  have taken :=
    (obtainRegister_confines obtained).saving obtains.room (reflects.relocks enter).tracks
    (separate1.mono leads.extent) first.executes
  have saving : Saving p c s.memory c' s2.memory := .trans (.of_books leads0 enter.books)
    (taken.trans (loads.saving.trans (.of_books leave.leads leave.books)))
  refine ⟨s2.set r w, ?_, reflects_set.relocks leave, (occupants r).trans empty1, bank,
    obtains.range, by simp, fun settles => ⟨value, found, ?_⟩, fun {q} is_locked _ => ?_, saving,
    fun {old} found1 is_needed => ?_⟩
  · exact (Executes.of_code enter.code).trans
      (first.executes.trans (loads.executes.trans (.of_code leave.code)))
  · obtain ⟨value2, found2, ages⟩ := first.leads.values found0
    have settles2 := settles.after (leads0.trans first.leads)
    rw [← ages.ty]
    exact first.reflects.canonical words2 settles2 found2 (isLoadable_of_loadValue found2 load)
  · exact kept (locks q is_locked)
  · -- The value is in memory, where it stays, or in a register that is locked meanwhile.
    obtain ⟨value2, found2, ages⟩ := first.leads.values found0
    obtain ⟨_, found', ages'⟩ := leads.values found2
    obtain rfl := Option.mem_unique (leave.values ▸ found1) found'
    obtain is_constant | ⟨place, at_place, _⟩ := isLoadable_of_loadValue found2 load
    · rw [isConstant, ← constant?_eq_of_nature ages'.nature] at is_constant
      cases kind : old.kind <;>
        simp_all [Value.isNeeded, Value.constant?, isNamed, named?, isUnnamed]
    have there {place : Position}
        (stands : ∃ st, c1.books.standing v = some st ∧ st.position = some place) :
        old.position.isSome := by
      obtain ⟨_, standing, at_place⟩ := stands
      obtain rfl := Option.mem_unique (standing_books found') standing
      exact Option.isSome_of_mem at_place
    cases memory : place.isRegister with
    | false => exact there (loads.saving.anchors (standing_books found2) at_place memory)
    | true =>
      obtain ⟨q, rfl⟩ : ∃ q, place = .register q := by
        cases place with
        | register q => exact ⟨q, rfl⟩
        | _ => cases memory
      have occupied :=
        obtains.room.shrinks (first.reflects.tracks.owned (standing_books found2) at_place)
      have at_q :=
        ((reflects.relocks enter).tracks.occupant_iff (standing_books found0)).mp occupied
      have still := (kept (own found at_q (inRange_of_occupant? occupied))).2.2.trans
        ((congrFun (congrArg Books.occupant enter.books) q).symm.trans occupied)
      obtain ⟨st, standing, at_q, _⟩ := (reflects_set.relocks leave).tracks.held still
      exact there ⟨st, leave.books ▸ standing, at_q⟩

theorem takeRegister_copies (reflects : Reflects hw p R c s) (words : R.Words c v w)
    (run : Runs (takeRegister v) c r c') (separate : p.Separates c'.extent) :
    ∃ s', Copies hw p R v w c s r c' s' := by
  have copied (run : Runs (takeRegister.copied v) c r c') :
      ∃ s', Copies hw p R v w c s r c' s' := by
    simp only [takeRegister.copied, runs_bind, runs_discard, runs_pure] at run
    obtain ⟨q, c1, copy, _, c2, ⟨_, consumed⟩, rfl, rfl⟩ := run
    have last : Leads c1 c' := .of_walks (walks_consume v) consumed
    obtain ⟨s', copies⟩ := copyToRegister_copies reflects words copy (separate.mono last.extent)
    exact ⟨s', copies.consume consumed⟩
  obtain ⟨value, found, run⟩ := runs_valueOf_bind.mp run
  cases at_register : value.register? with
  | none =>
    simp only [at_register] at run
    exact copied run
  | some q =>
    simp only [at_register] at run
    obtain ⟨last_use, run⟩ | ⟨_, run⟩ := runs_ite.mp run
    · -- The last use of a temporary gives away its own register.
      simp only [runs_bind, runs_discard, runs_pure] at run
      obtain ⟨_, c1, ⟨_, consumed⟩, _, c2, ⟨x, unbound⟩, rfl, rfl⟩ := run
      have first := consume_simulates reflects consumed
      have walked := walks_unbindRegister (D := .homed) r _ _ first.reflects.homed unbound
      have pos := position_of_register? at_register
      have occupied := reflects.occupant? found at_register
      have bank : r.bank = .int := by
        rw [← (reflects.tracks.seated (standing_books found) pos).1]
        exact words.bank found
      have books : c1.books = c.books := by
        obtain ⟨_, _, _, rfl⟩ := runs_consume consumed
        exact c.books_consume v _
      have same (q : Register) : c1.registers.occupant? q = c.registers.occupant? q :=
        congrFun (congrArg Books.occupant books) q
      obtain rfl : v = x :=
        Option.mem_unique occupied ((same r).symm.trans (occupied_of_unbindRegister unbound))
      have spent {old : Value} (found' : c1.values.get? v = some old) : old.isNeeded = false := by
        obtain ⟨_, found0, used, rfl⟩ := runs_consume consumed
        obtain rfl := Option.mem_unique found found0
        rw [ValueStore.get?_modify, if_pos rfl, found] at found'
        cases found'
        simp_all [Value.isNeeded, isNamed, named?]
      have room : MakesRoom hw p (· = r) id c1 c' :=
        unbindRegister_room unbound fun found' unnamed => by
        have unused := spent found'
        simp only [Value.isNeeded, unnamed, Bool.true_and, Bool.or_eq_false_iff,
          decide_eq_false_iff_not] at unused
        omega
      have saving (ran : Executes hw p c1 s c' s) : Saving p c s.memory c' s.memory :=
        .trans (.of_books first.leads books)
          ((unbindRegister_confines unbound).saving room first.reflects.tracks separate ran)
      obtain ⟨value1, found1, occupied1, range, position1, clean, remarks, only, rfl⟩ :=
        runs_unbindRegister unbound
      refine ⟨s, first.executes.trans (.remarks (fun i member => (only i member).remark) rfl),
        ?_, ?_, bank, range, reflects.register occupied words.word, fun _ =>
          ⟨value, found, reflects.tracks.canonical
          (standing_books found) (by simp [Value.standing, pos]) words.word⟩,
        fun {q} is_locked elsewhere => ?_,
          saving (.remarks (fun i member => (only i member).remark) rfl), fun last is_needed => ?_⟩
      · refine first.reflects.after walked.1 walked.2.1 ?_
        rw [books_relocated range none found1]
        exact first.reflects.tracks.release (standing_books found1) position1 clean
      · exact (occupant?_setOccupant _ _ _ range).trans (if_pos rfl)
      · have other : q ≠ r := by
          rintro rfl
          exact elsewhere occupied
        exact ⟨other, rfl,
          ((occupant?_setOccupant _ _ _ range).trans (if_neg other)).trans (same q)⟩
      · rw [ValueStore.get?_modify, if_pos rfl, found1] at last
        cases last
        cases (spent found1).symm.trans is_needed
    · exact copied run

theorem cmpImm_executes {cond : Cond} : Executes hw p c (s.set r w) (c.pushed (.cmpImm r imm cond))
    (s.set r (Word.ofBool (cond.holds w imm))) := by
  refine .pushed ?_
  simp [Instr.execute]

theorem copyConverted_executes (mirrors : Mirrors hw p env c s) (bank : dst.bank = .int)
    (plain : ty.isPlain = true) (run : Runs (copyConverted v (.register dst) ty) c u c') :
    ∃ s1, Mirrors hw p env c' s1 ∧ c'.books = c.books
      ∧ Executes hw p c s c' (s1.set dst (ty.canonicalBits (env v))) := by
  obtain ⟨homed, _⟩ :=
    walks_copyConverted (D := .homed) v (.register dst) ty _ _ mirrors.homed run
  obtain ⟨value, _, read, _⟩ := runs_bind.mp run
  obtain ⟨found, _⟩ := runs_valueOf.mp read
  have source := mirrors.ints found
  have small := (Ty.registerSized_of_isPlain plain).le
  have scalar : (value.ty.isScalar && ty.isScalar) = true := by
    simp [Ty.isScalar_of_isPlain source, Ty.isScalar_of_isPlain plain]
  obtain ⟨moves, _⟩ := copyConverted_moves (mirrors.supplies found) mirrors.ready
    (fun _ memory => by cases memory) (fun _ f is_frame => by cases is_frame) (.inl trivial)
    (by rintro _ ⟨⟩; rw [bank, Ty.bank_of_isPlain plain]) (fun memory => by cases memory)
    (Ty.regular_of_isPlain source) (Ty.regular_of_isPlain plain) (by omega)
    (fun not_scalar => by simp [scalar] at not_scalar) (fun _ => Ty.isScalar_of_isPlain plain)
    (by simp [Ty.isArray_of_isPlain source]) run
  have converted : hw.converted value.ty ty (.word (env v)) = .word (ty.canonicalBits (env v)) := by
    simp [Hardware.converted, scalar, Hardware.fitted, Ty.bank_of_isPlain plain]
  have fitted : Moves (plainScene hw p env c) (some dst) (fun s t =>
      t = s.set dst (ty.canonicalBits (env v))) c c' := by
    refine moves.mono fun _ _ ended => ?_
    obtain ⟨w, is_word, ended⟩ := ended
    rw [ended, Content.word.inj (converted.symm.trans is_word)]
  obtain ⟨s1, mirrors1, books, ran⟩ := mirrors.moved homed fitted
  exact ⟨s1, mirrors1, books, ran⟩

end

end RegisterBackend
