import RegisterBackend.Proofs.Transfer

/-!
Passing one argument. Copying it to its place changes the place, perhaps registers that nobody
locked, and nothing else.
-/
namespace RegisterBackend

open Gen Discipline Context

variable {bound : Nat} {place : ArgumentPlace} {passed : Content}

section
variable {hw : Hardware} {p : Placement} {content : ValueId → Content} {frame : FrameId}
  {c c1 c' : Context} {s s1 s' : MachineState} {r : Register} {v : ValueId} {value : Value}
  {u : Unit} {ty : Ty}

/-- No register holds a value, and the books are right about memory. -/
structure Poised (hw : Hardware) (p : Placement) (content : ValueId → Content) (frame : FrameId)
    (c : Context) (s : MachineState) : Prop where
  tracks : Tracks hw p content c.books s
  vacant : c.Vacant
  current : c.currentFrame = some frame

theorem Tracks.of_vacant {b : Books} (tracks : Tracks hw p content b s)
    (vacant : ∀ r, b.occupant r = none) (memory : ∀ {area i}, i < b.extent area →
      s'.memory (p.address ⟨area, i⟩) = s.memory (p.address ⟨area, i⟩)) :
    Tracks hw p content b s' where
  held occupied := by
    rw [vacant] at occupied
    cases occupied
  owned := tracks.owned
  canonical := tracks.canonical
  located := tracks.located
  apart := tracks.apart
  current {v st pos cell} standing now is_cell := by
    obtain ⟨_, is_cell', inside⟩ := tracks.located standing now.owns
    obtain rfl := Option.mem_unique is_cell is_cell'
    rw [← tracks.current standing now is_cell]
    refine Hardware.read_congr fun i small => ?_
    rw [Placement.address_add]
    refine memory ?_
    simp only [Cell.Inside] at inside
    omega

namespace Poised

section
variable (poised : Poised hw p content frame c s)
include poised

theorem housed : c.Housed frame where
  current := poised.current
  occupants occupied := by
    rw [poised.vacant] at occupied
    cases occupied

theorem step (books : c'.books = c.books) (current : c'.currentFrame = c.currentFrame)
    (memory : ∀ {area i}, i < c.extent area →
      s'.memory (p.address ⟨area, i⟩) = s.memory (p.address ⟨area, i⟩)) :
    Poised hw p content frame c' s' where
  tracks := by
    rw [books]
    exact poised.tracks.of_vacant poised.vacant memory
  vacant r := (congrFun (congrArg Books.occupant books) r).trans (poised.vacant r)
  current := current.trans poised.current

theorem withLock (r : Register) (locked : Bool) :
    Poised hw p content frame (c.withLock r locked) s :=
  poised.step (by simp) rfl fun _ => rfl

theorem isRegister_eq_false (found : c.values.get? v = some value) {place : Position}
    (at_place : value.position = some place) : place.isRegister = false := by
  cases place with
  | register q =>
    have occupied := poised.tracks.owned (standing_books found) at_place
    cases (poised.vacant q).symm.trans occupied
  | _ => rfl

theorem register?_eq_none (found : c.values.get? v = some value) : value.register? = none := by
  cases at_register : value.register? with
  | none => rfl
  | some q => cases poised.isRegister_eq_false found (Value.position_of_register? at_register)

theorem holdingRegisterOf {α : Type} {block : Gen α} {a : α}
    (run : Runs (holdingRegisterOf v block) c a c') : Runs block c a c' := by
  obtain ⟨value, found, run⟩ := runs_valueOf_bind.mp run
  rwa [poised.register?_eq_none found] at run

end

end Poised

/-- What memory the value has on the stack is in the frame, and a constant has its own form. -/
structure Supplied (hw : Hardware) (content : ValueId → Content) (frame : FrameId) (c : Context)
    (v : ValueId) : Prop where
  lodges : c.books.Lodges frame v
  constant : ∀ {value bits}, c.values.get? v = some value → value.constant? = some bits →
    content v = .word bits ∧ value.ty.isScalar = true ∧ hw.Canonical value.ty bits

theorem Supplied.after (supplied : Supplied hw content frame c v) (leads : Leads c c')
    (stays : Stays frame c c') : Supplied hw content frame c' v where
  lodges := stays.lodges supplied.lodges
  constant {value' bits} found' is_constant := by
    obtain ⟨value, found, ages⟩ := leads.before found'
    rw [ages.ty]
    exact supplied.constant found (Value.constant?_eq_of_nature ages.nature ▸ is_constant)

def passScene (hw : Hardware) (p : Placement) (content : ValueId → Content)
    (frame : FrameId) (c : Context) : Scene :=
  ⟨hw, p, content, c.books, some frame, True⟩

theorem Poised.supplies (poised : Poised hw p content frame c s)
    (supplied : Supplied hw content frame c v) (found : c.values.get? v = some value) :
    (passScene hw p content frame c).Supplies c v value where
  found := found
  constant is_bits := supplied.constant found is_bits
  knows occupied := by cases (poised.vacant _).symm.trans occupied
  calm _ := ⟨by rintro _ ⟨⟩; exact supplied.lodges, fun _ => poised.vacant⟩

theorem Poised.ready (poised : Poised hw p content frame c s) :
    (passScene hw p content frame c).Ready c.books s := ⟨poised.tracks, .refl _⟩

def ArgumentPlace.position : ArgumentPlace → Position
  | .register r => .register r
  | .stack offset => .stack (.outgoing offset)

theorem ArgumentPlace.within (place : ArgumentPlace) :
    (passScene hw p content frame c).Within place.position.KeepsTo := by
  rintro _ _ ⟨⟩
  cases place with
  | register r => trivial
  | stack offset => exact .inr rfl

def ArgumentPlace.Covers (p : Placement) (place : ArgumentPlace) (size : Nat)
    (address : Word) : Prop :=
  ∃ offset i, place = .stack offset ∧ i < size
    ∧ address = p.outgoing + BitVec.ofNat 64 (offset + i)

/-- The place is a register for the type, or it ends below the bound. -/
def ArgumentPlace.Suits (bound : Nat) (ty : Ty) : ArgumentPlace → Prop
  | .register r => r.bank = ty.bank ∧ r.inRange = true
  | .stack offset => offset + ty.size ≤ bound

theorem ArgumentPlace.Suits.bank_of_position (suits : place.Suits bound ty) (q : Register)
    (is_register : place.position = .register q) : q.bank = ty.bank := by
  cases place with
  | register r =>
    cases is_register
    exact suits.1
  | stack offset => cases is_register

def Hardware.view (hw : Hardware) (p : Placement) (s : MachineState) (ty : Ty) : Position → Content
  | .register r => .word (s.registers r)
  | place => hw.read ty s.memory (p.locate place)

/-- The first bytes beyond the frame belong to no area. -/
def Placement.Clears (p : Placement) (extent : Area → Nat) (bound : Nat) : Prop :=
  ∀ ⦃area i j⦄, i < extent area → j < bound → p.address ⟨area, i⟩ ≠ p.outgoing + BitVec.ofNat 64 j

theorem Placement.Clears.mono {extent larger : Area → Nat} (clears : p.Clears larger bound)
    (le : ∀ area, extent area ≤ larger area) : p.Clears extent bound :=
  fun _ _ _ inside below => clears (inside.trans_le (le _)) below

theorem Placement.outgoing_add (p : Placement) (offset i : Nat) :
    p.slot (.outgoing offset) + BitVec.ofNat 64 i = p.outgoing + BitVec.ofNat 64 (offset + i) := by
  rw [BitVec.ofNat_add, ← BitVec.add_assoc]
  rfl

/-- What memory belongs to a value goes on belonging to it. -/
def Books.Retains (b b' : Books) : Prop :=
  ∀ ⦃v st place⦄, b.standing v = some st → st.Owns place →
    ∃ st', b'.standing v = some st' ∧ st'.Owns place

theorem Books.Retains.refl (b : Books) : b.Retains b :=
  fun _ _ _ standing owns => ⟨_, standing, owns⟩

theorem Books.Retains.trans {b b1 b' : Books} (first : b.Retains b1) (second : b1.Retains b') :
    b.Retains b' := by
  intro v st place standing owns
  obtain ⟨st1, standing1, owns1⟩ := first standing owns
  exact second standing1 owns1

/-- The place gets the content. Other bytes, registers that are locked and the places of values
stay as they are. -/
structure Delivers (hw : Hardware) (p : Placement) (content : ValueId → Content) (frame : FrameId)
    (c : Context) (s : MachineState) (place : ArgumentPlace) (ty : Ty) (passed : Content)
    (c' : Context) (s' : MachineState) : Prop where
  executes : Executes hw p c s c' s'
  stays : Stays frame c c'
  poised : Poised hw p content frame c' s'
  there : hw.view p s' ty place.position = passed
  memory : ∀ {address}, ¬place.Covers p ty.size address → s'.memory address = s.memory address
  spares : ∀ {q}, c.registers.isLocked q = true → place ≠ .register q → Spares q c c'
  retains : c.books.Retains c'.books

theorem Moves.delivers (poised : Poised hw p content frame c s) (clears : p.Clears c.extent bound)
    (suits : place.Suits bound ty)
    (moves : Moves (passScene hw p content frame c) place.position.register?
      (hw.Placed p ty place.position passed) c c') :
      ∃ s', Delivers hw p content frame c s place ty passed c' s' := by
  obtain ⟨s1, t, ran, placed, _, _, saving⟩ := moves.carries poised.ready (.inl trivial)
  obtain ⟨books, stays, spares⟩ := moves.tame trivial
  have same : s1.memory = s.memory := saving.memory_eq books poised.tracks
  obtain ⟨there, outside, inside⟩ : hw.view p t ty place.position = passed
      ∧ (∀ {address}, ¬place.Covers p ty.size address → t.memory address = s.memory address)
      ∧ ∀ {area i}, i < c.extent area → t.memory (p.address ⟨area, i⟩) = s.memory
        (p.address ⟨area, i⟩) := by
    cases place with
    | register r =>
      obtain ⟨w, rfl, rfl⟩ := placed
      exact ⟨by simp [Hardware.view, ArgumentPlace.position], fun _ => congrFun same _,
        fun _ => congrFun same _⟩
    | stack offset =>
      obtain ⟨bytes, length, rfl, read⟩ := placed
      rw [ArgumentPlace.Suits] at suits
      have apart {address : Word}
          (free : ∀ j < ty.size, address ≠ p.outgoing + BitVec.ofNat 64 (offset + j)) :
          s1.memory.write (p.slot (.outgoing offset)) bytes address = s.memory address := by
        rw [← same]
        refine Memory.write_of_apart _ fun j below => ?_
        rw [Placement.outgoing_add]
        exact free j (length ▸ below)
      exact ⟨read, fun outside => apart fun j below is_byte =>
        outside ⟨offset, j, rfl, below, is_byte⟩,
        fun small => apart fun j below => clears small (by omega)⟩
  refine ⟨t, ran, stays frame rfl,
    poised.step books moves.leads.currentFrame inside, there, outside, fun is_locked other =>
      spares is_locked ?_, books ▸ .refl _⟩
  cases place with
  | register r =>
    rintro ⟨⟩
    exact other rfl
  | stack offset => rintro ⟨⟩

theorem homeOf_retains {home : Position} (run : Runs (homeOf v) c home c') :
    c'.code = c.code ∧ c'.registers = c.registers ∧ c'.currentFrame = c.currentFrame
    ∧ c.books.Retains c'.books := by
  obtain ⟨value, named, found, is_named, ⟨_, rfl⟩ | ⟨fresh, _, _, c1, hands, rfl⟩⟩ :=
    runs_homeOf run
  · exact ⟨rfl, rfl, rfl, .refl _⟩
  refine ⟨hands.code, by cases hands <;> rfl, by cases hands <;> rfl, ?_⟩
  intro w st place standing owns
  have books := books_modify (f := (·.mapNamed fun _ => { named with home := some home }))
    (hands.values ▸ found : c1.values.get? v = some value)
  rw [Value.standing_mapNamed is_named, hands.books] at books
  rw [books]
  by_cases same : w = v
  · subst same
    obtain rfl := Option.mem_unique standing (standing_books found)
    refine ⟨_, Function.update_self _ _ _, ?_⟩
    rcases owns with memory | at_home
    · exact .inl memory
    · simp [Value.standing, Value.home?, is_named, fresh] at at_home
  · exact ⟨st, by simpa [Books.put, Books.withExtent, same] using standing, owns⟩

theorem flush_poised (poised : Poised hw p content frame c s) (run : Runs (flush v) c u c') :
    c' = c := by
  obtain ⟨value, found, run⟩ := runs_valueOf_bind.mp run
  simp only [poised.register?_eq_none found, runs_ite, runs_inconsistent, runs_pure, and_false,
    false_or] at run
  exact run.2.2

theorem settle_poised {place : Position} (poised : Poised hw p content frame c s)
    (lodges : c.books.Lodges frame v) (separate : p.Separates c'.extent)
    (run : Runs (settle v) c place c') :
    Poised hw p content frame c' s ∧ c'.code = c.code ∧ Stays frame c c' ∧ place.KeepsTo frame
      ∧ (∃ st, c'.books.standing v = some st ∧ st.Owns place) ∧ c.books.Retains c'.books := by
  obtain ⟨value, found, run⟩ := runs_valueOf_bind.mp run
  obtain ⟨is_named, run⟩ | ⟨_, run⟩ := runs_ite.mp run
  · simp only [runs_bind, runs_pure] at run
    obtain ⟨home, c1, homed, _, c2, flushed, rfl, rfl⟩ := run
    obtain ⟨code, registers, current, retains⟩ := homeOf_retains homed
    obtain ⟨resides, keeps⟩ : Resides frame c c1 ∧ _ := homeOf_resides homed
    have room : MakesRoom hw p (fun _ => True) id c c1 := homeOf_room homed
    have leads := Leads.of_walks (walks_flush v) flushed
    obtain ⟨s1, ran, tracks, _⟩ := room.carries poised.tracks (separate.mono leads.extent)
    obtain rfl : s1 = s := ran.eq_of_code code
    have poised1 : Poised hw p content frame c1 s1 :=
      ⟨tracks, fun r => registers ▸ poised.vacant r, current.trans poised.current⟩
    obtain rfl := flush_poised poised1 flushed
    obtain ⟨value1, found1, at_home⟩ := home?_of_homeOf homed
    exact ⟨poised1, code, (resides poised.housed).2, keeps poised.housed lodges,
      ⟨_, standing_books found1, .inr at_home⟩, retains⟩
  · obtain ⟨_, run⟩ | ⟨_, run⟩ := runs_ite.mp run
    · simp at run
    cases at_place : value.position with
    | none => simp [at_place] at run
    | some spot =>
      have memory := poised.isRegister_eq_false found at_place
      have standing := standing_books found
      have here (same : place = spot ∧ c' = c) : Poised hw p content frame c' s ∧ c'.code = c.code
          ∧ Stays frame c c' ∧ place.KeepsTo frame
          ∧ (∃ st, c'.books.standing v = some st ∧ st.Owns place) ∧ c.books.Retains c'.books := by
        obtain ⟨rfl, rfl⟩ := same
        exact ⟨poised, rfl, .refl _, lodges standing (.inl ⟨at_place, memory⟩),
          ⟨_, standing, .inl ⟨at_place, memory⟩⟩, .refl _⟩
      cases spot with
      | register q => cases memory
      | stack slot | static offset | constant id => exact here (by simpa [at_place] using run)

theorem Delivers.after (code : c1.code = c.code) (stays : Stays frame c c1)
    (locked : c1.registers.locked = c.registers.locked) (retains : c.books.Retains c1.books)
    (second : Delivers hw p content frame c1 s place ty passed c' s') :
    Delivers hw p content frame c s place ty passed c' s' where
  executes := (Executes.of_code code).trans second.executes
  stays := stays.trans second.stays
  poised := second.poised
  there := second.there
  memory := second.memory
  spares is_locked other :=
    (Spares.of_code code).trans (second.spares (by rwa [RegisterFile.isLocked, locked]) other)
  retains := retains.trans second.retains

theorem Delivers.retype {source : Ty}
    (delivers : Delivers hw p content frame c s place source passed c' s')
    (alike : source.Alike ty) : Delivers hw p content frame c s place ty passed c' s' where
  executes := delivers.executes
  stays := delivers.stays
  poised := delivers.poised
  there := by
    rw [← delivers.there]
    cases place with
    | register r => rfl
    | stack offset => exact Hardware.read_alike alike _ _
  memory := alike.size ▸ delivers.memory
  spares := delivers.spares
  retains := delivers.retains

theorem copyAddress_delivers (poised : Poised hw p content frame c s)
    (lodges : c.books.Lodges frame v) (ptr : ty.isPointer = true) (suits : place.Suits bound ty)
    (clears : p.Clears c'.extent bound) (separate : p.Separates c'.extent)
    (run : Runs (copyAddress v place.position) c u c') :
    ∃ home s', (∃ st, c'.books.standing v = some st ∧ st.Owns home)
      ∧ Delivers hw p content frame c s place ty (.word (p.locate home)) c' s' := by
  have alike := Ty.alike_of_isPointer ty ptr
  obtain ⟨home, c1, settled, rest⟩ := runs_bind.mp run
  have locked := (walks_settle (D := .free) v _ _ trivial settled).2.2
  have leads := (walks_seq (D := .free) (walks_targetRegister _ _)
    (walks_holding (walks_seq (walks_loadAddress _ _)
      (walks_store _ _ _))) _ _ trivial rest).2.1
  obtain ⟨poised1, code, stays, keeps, ⟨st, standing, owns⟩, retains⟩ :=
    settle_poised poised lodges (separate.mono leads.extent) settled
  simp only [runs_bind, runs_holding] at rest
  obtain ⟨r, c2, obtained, _, ⟨_, c3, addressed, stored⟩, rfl⟩ := rest
  have fits : place.Suits bound .u64 := by
    cases place with
    | register q => exact ⟨suits.1.trans alike.bank.symm, suits.2⟩
    | stack offset =>
      rw [ArgumentPlace.Suits, alike.size]
      exact suits
  obtain ⟨taken, bank, chosen⟩ :
    Moves (passScene hw p content frame c1) place.position.register? Eq c1 c2 ∧ _ :=
    targetRegister_moves (fun _ _ => poised1.vacant) fits.bank_of_position obtained
  have load : Moves (passScene hw p content frame c1) (some r) _ (c2.withLock r true) c3 :=
    loadAddress_moves (by rintro _ _ ⟨⟩; exact keeps) addressed
  have placed : Moves (passScene hw p content frame c1) place.position.register?
      (hw.Placed p .u64 place.position (.word (p.locate home))) c1 _ :=
    taken.trans (load.stored
      (fun _ _ => taken.vacant (fun _ => poised1.vacant) trivial) place.within bank
        (by decide) chosen (fun _ => rfl) (fun _ => narrow_word _ _) stored)
  obtain ⟨s', delivers⟩ := placed.delivers poised1 (clears.mono leads.extent) fits
  obtain ⟨st', standing', owns'⟩ := delivers.retains standing owns
  exact ⟨home, s', ⟨st', standing', owns'⟩, (delivers.after code stays locked retains).retype alike⟩

/-- What the parameter is to receive: the address of an array that becomes a pointer, else the
converted argument. -/
def Conveys (hw : Hardware) (p : Placement) (content : ValueId → Content)
    (c : Context) (v : ValueId) (ty : Ty) (passed : Content) : Prop :=
  ∃ value, c.values.get? v = some value ∧
    if value.ty.isArray && ty.isPointer then
      ∃ home, value.standing.Owns home ∧ passed = .word (p.locate home)
    else passed = hw.converted value.ty ty (content v)

theorem Conveys.after (conveys : Conveys hw p content c v ty passed) (leads : Leads c c')
    (retains : ∀ ⦃st place⦄, c.books.standing v = some st → st.Owns place →
      ∃ st', c'.books.standing v = some st' ∧ st'.Owns place) :
      Conveys hw p content c' v ty passed := by
  obtain ⟨value, found, is_passed⟩ := conveys
  obtain ⟨value', found', ages⟩ := leads.values found
  refine ⟨value', found', ?_⟩
  rw [ages.ty]
  split
  · next decays =>
    rw [if_pos decays] at is_passed
    obtain ⟨home, owns, is_address⟩ := is_passed
    obtain ⟨st', standing', owns'⟩ := retains (standing_books found) owns
    obtain rfl := Option.mem_unique (standing_books found') standing'
    exact ⟨home, owns', is_address⟩
  · next plain => rwa [if_neg plain] at is_passed

structure Passable (hw : Hardware) (content : ValueId → Content) (frame : FrameId) (c : Context)
    (v : ValueId) (ty : Ty) : Prop extends Supplied hw content frame c v where
  assignable : ∀ {value}, c.values.get? v = some value → value.ty.assignable ty = true
  regular : ∀ {value}, c.values.get? v = some value → value.ty.Regular

theorem Passable.after (passable : Passable hw content frame c v ty) (leads : Leads c c')
    (stays : Stays frame c c') : Passable hw content frame c' v ty where
  toSupplied := passable.toSupplied.after leads stays
  assignable found' := by
    obtain ⟨value, found, ages⟩ := leads.before found'
    rw [ages.ty]
    exact passable.assignable found
  regular found' := by
    obtain ⟨value, found, ages⟩ := leads.before found'
    rw [ages.ty]
    exact passable.regular found

section
variable (poised : Poised hw p content frame c s) (passable : Passable hw content frame c v ty)
  (regular : ty.Regular) (suits : place.Suits bound ty)
include poised passable regular suits

theorem copyConverted_delivers (small : ty.size < 2 ^ 64) (clears : p.Clears c'.extent bound)
    (separate : p.Separates c'.extent) (run : Runs (copyConverted v place.position ty) c u c') :
    ∃ passed s', Conveys hw p content c' v ty passed
    ∧ Delivers hw p content frame c s place ty passed c' s' := by
  have leads := Leads.of_walks (walks_copyConverted v place.position ty) run
  obtain ⟨value, _, read, _⟩ := runs_bind.mp run
  obtain ⟨found, _⟩ := runs_valueOf.mp read
  obtain ⟨value', found', ages⟩ := leads.values found
  cases decays : value.ty.isArray && ty.isPointer with
  | true =>
    rw [copyConverted, runs_found found, if_pos decays] at run
    obtain ⟨home, s', ⟨st, standing, owns⟩, delivers⟩ := copyAddress_delivers poised passable.lodges
      (Bool.and_eq_true_iff.mp decays).2 suits clears separate run
    obtain rfl := Option.mem_unique (standing_books found') standing
    refine ⟨_, s', ⟨value', found', ?_⟩, delivers⟩
    rw [ages.ty, if_pos decays]
    exact ⟨home, owns, rfl⟩
  | false =>
    have assignable := passable.assignable found
    have supplies := poised.supplies passable.toSupplied found
    -- What a value owns is in an area, and arguments are not.
    have apart (memory : place.position.isRegister = false) :
        value.position ≠ some place.position := by
      intro at_place
      obtain ⟨cell, is_cell, _⟩ :=
        poised.tracks.located (standing_books found) (.inl ⟨at_place, memory⟩)
      cases place <;> cases is_cell
    have constant (is_constant : value.isConstant = true) : ty.isScalar = true := by
      obtain ⟨bits, is_bits⟩ := Option.isSome_iff_exists.mp is_constant
      exact Ty.isScalar_of_assignable assignable (supplies.constant is_bits).2.1
    obtain ⟨moves, _⟩ :=
      copyConverted_moves supplies poised.ready (fun _ _ => poised.vacant) place.within
      (.inl trivial) suits.bank_of_position apart (passable.regular found) regular small
      (fun not_scalar => Ty.alike_of_assignable assignable not_scalar decays) constant decays run
    obtain ⟨s', delivers⟩ := moves.delivers poised (clears.mono leads.extent) suits
    refine ⟨_, s', ⟨value', found', ?_⟩, delivers⟩
    rw [ages.ty, if_neg (by simp [decays])]
    rfl

end

end

end RegisterBackend
