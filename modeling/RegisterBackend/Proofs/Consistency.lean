import RegisterBackend.Proofs.Eviction

/-!
Consistent contexts: the check passes, memory is shared by no two values, and the machine holds
every value where the bookkeeping says. Making room keeps them so.
-/
namespace RegisterBackend

open Discipline Context RegisterFile ValueStore

variable {c : Context} {hw : Hardware} {p : Placement} {entries : List (ValueId × Value)}
  {place pos : Position} {seen : List (Position × ValueId)} {v : ValueId} {value : Value}

theorem ValueStore.mem_toList {s : ValueStore} : (v, value) ∈ s.toList ↔ s.get? v = some value := by
  simp only [toList, get?, List.mem_mapIdx]
  constructor
  · rintro ⟨i, small, same⟩
    cases same
    simp
  · intro found
    obtain ⟨small, rfl⟩ := Array.getElem?_eq_some_iff.mp found
    exact ⟨v.index, by simpa using small, by simp⟩

theorem ValueStore.toList_distinct (s : ValueStore) : s.toList.Pairwise fun a b => a.1 ≠ b.1 := by
  rw [List.pairwise_iff_getElem]
  intro i j hi hj less same
  simp only [toList, List.getElem_mapIdx, ValueId.mk.injEq] at same
  omega

namespace Context

theorem checkOccupants_ok_iff {occupied : List (Register × ValueId)} :
    c.checkOccupants occupied = .ok () ↔ ∀ r v, (r, v) ∈ occupied → ∃ value,
      c.values.get? v = some value ∧ value.position = some (.register r)
      ∧ value.ty.bank = r.bank := by
  induction occupied with
  | nil => simp [checkOccupants]
  | cons head rest ih =>
    obtain ⟨r, v⟩ := head
    rw [checkOccupants]
    cases found : c.values.get? v with
    | none => simpa using ⟨r, v, .inl ⟨rfl, rfl⟩, by simp [found]⟩
    | some value =>
      by_cases pos : value.position = some (.register r)
      · by_cases bank : value.ty.bank = r.bank
        · simp only [pos, bank, ne_eq, not_true_eq_false, ↓reduceIte, ih, List.mem_cons]
          refine ⟨fun all q w member => ?_, fun all q w member => all q w (.inr member)⟩
          rcases member with same | member
          · cases same
            exact ⟨value, found, pos, bank⟩
          · exact all q w member
        · simpa [pos, bank] using ⟨r, v, .inl ⟨rfl, rfl⟩, by simp [found, bank]⟩
      · simpa [pos] using ⟨r, v, .inl ⟨rfl, rfl⟩, by simp [found, pos]⟩

/-- The position counts: it is not that of a temporary without further uses. -/
def Claims (entry : ValueId × Value) (pos : Position) : Prop :=
  entry.2.position = some pos ∧ entry.2.isStale = false

theorem checkOwnership_ok_iff : c.checkOwnership v pos = .ok () ↔
      ∀ r, pos = .register r → c.registers.occupant? r = some v := by
  cases pos with
  | register r =>
    simp only [checkOwnership, RegisterFile.occupant]
    by_cases range : r.inRange = true
    · by_cases held : c.registers.occupant? r = some v <;> simp [range, held]
    · simp [range, occupant?_of_not_inRange range]
  | _ => simp [checkOwnership]

theorem checkPositions_ok_iff : c.checkPositions entries seen = .ok () ↔
    (∀ entry ∈ entries, ∀ pos, Claims entry pos →
      (∀ r, pos = .register r → c.registers.occupant? r = some entry.1)
      ∧ seen.lookup pos = none)
    ∧ entries.Pairwise fun a b => ∀ pos, Claims a pos → ¬Claims b pos := by
  induction entries generalizing seen with
  | nil => simp [checkPositions]
  | cons head rest ih =>
    obtain ⟨v, value⟩ := head
    rw [checkPositions, List.pairwise_cons, List.forall_mem_cons]
    cases is_position : value.position with
    | none =>
      have idle (pos : Position) : ¬Claims (v, value) pos := by simp [Claims, is_position]
      simp only [idle, ih, false_implies, implies_true, true_and]
    | some pos =>
      dsimp only
      by_cases stale : value.isStale = true
      · have idle (pos : Position) : ¬Claims (v, value) pos := by simp [Claims, stale]
        simp only [stale, idle, ih, if_true, false_implies, implies_true, true_and]
      have claims (other : Position) : Claims (v, value) other ↔ other = pos := by
        simp [Claims, is_position, stale, eq_comm]
      simp only [claims, forall_eq, if_neg stale]
      rw [← checkOwnership_ok_iff]
      cases c.checkOwnership v pos with
      | error fault => simp
      | ok =>
        cases first : seen.lookup pos with
        | some other => simp
        | none =>
          -- The position is new; whoever claims it later would find it among those seen.
          have seen_now (other : Position) : List.lookup other ((pos, v) :: seen) = none
              ↔ other ≠ pos ∧ seen.lookup other = none := by
            rw [List.lookup_cons]
            by_cases same : other = pos
            · simp [same]
            · simp only [beq_false_of_ne same, same, ne_eq, not_false_eq_true, true_and]
          simp only [ih, seen_now, true_and, ne_eq]
          constructor
          · rintro ⟨rules, apart⟩
            refine ⟨fun entry member other claimed => ?_, fun entry member again => ?_, apart⟩
            · exact ⟨(rules entry member other claimed).1, (rules entry member other claimed).2.2⟩
            · exact (rules entry member pos again).2.1 rfl
          · rintro ⟨rules, mine, apart⟩
            refine ⟨fun entry member other claimed => ?_, apart⟩
            refine ⟨(rules entry member other claimed).1, ?_, (rules entry member other claimed).2⟩
            rintro rfl
            exact mine entry member claimed

/-- The check passes if registers and values name each other, each in its bank, and no two values
claim one position. -/
theorem check_ok_iff : c.check = .ok () ↔
    (∀ {r v}, c.registers.occupant? r = some v → ∃ value, c.values.get? v = some value
      ∧ value.position = some (.register r) ∧ value.ty.bank = r.bank)
    ∧ (∀ {r v value}, c.values.get? v = some value → value.position = some (.register r) →
      c.registers.occupant? r = some v)
    ∧ ∀ {v w value other pos}, c.values.get? v = some value → c.values.get? w = some other →
      Claims (v, value) pos → Claims (w, other) pos → v = w := by
  have checked : c.check = .ok () ↔ c.checkOccupants c.registers.allOccupied = .ok ()
      ∧ c.checkPositions c.values.toList [] = .ok () := by
    rw [check]
    cases c.checkOccupants c.registers.allOccupied <;> simp
  rw [checked, checkOccupants_ok_iff, checkPositions_ok_iff]
  refine and_congr ⟨fun all _ _ occupied => all _ _ (mem_allOccupied.mpr occupied),
    fun all _ _ member => all (mem_allOccupied.mp member)⟩ ?_
  constructor
  · rintro ⟨owned, apart⟩
    refine ⟨fun {r v value} found pos => ?_,
      fun {v w value other pos} found found' claims claims' => ?_⟩
    · have live : value.isStale = false := by
        simp [Value.isStale, Value.register?, pos, Position.register?]
      exact (owned _ (mem_toList.mpr found) _ ⟨pos, live⟩).1 r rfl
    · by_contra ne
      have member := mem_toList.mpr found
      have member' := mem_toList.mpr found'
      have symmetric : Std.Symm fun a b : ValueId × Value => ∀ pos, Claims a pos →
          ¬Claims b pos :=
        ⟨fun _ _ apart pos claims claims' => apart pos claims' claims⟩
      exact apart.forall member member' (by simp [ne]) pos claims claims'
  · rintro ⟨owned, apart⟩
    refine ⟨fun entry member pos claims => ⟨?_, rfl⟩, ?_⟩
    · rintro r rfl
      exact owned (mem_toList.mp member) claims.1
    · refine c.values.toList_distinct.imp_of_mem
        fun member member' ne pos claims claims' => ?_
      exact ne (apart (mem_toList.mp member) (mem_toList.mp member') claims claims')

/-- The check passes exactly if a register is occupied by those values that report it, occupants are
in registers of their bank, and two values report one position only if one of them is stale. -/
theorem check_sound_and_complete (c : Context) : c.check = .ok () ↔
    (∀ r v, c.registers.occupant? r = some v ↔
      ∃ value, c.values.get? v = some value ∧ value.position = some (.register r))
    ∧ (∀ r v value, c.registers.occupant? r = some v → c.values.get? v = some value →
      value.ty.bank = r.bank)
    ∧ ∀ v w value other position, v ≠ w → c.values.get? v = some value →
      c.values.get? w = some other → value.position = some position →
      other.position = some position →
      value.isStale = true ∨ other.isStale = true := by
  rw [check_ok_iff]
  constructor
  · rintro ⟨seated, owned, apart⟩
    refine ⟨fun r v => ⟨fun occupied => ?_, ?_⟩, fun r v value occupied found => ?_, ?_⟩
    · obtain ⟨value, found, position, -⟩ := seated occupied
      exact ⟨value, found, position⟩
    · rintro ⟨value, found, position⟩
      exact owned found position
    · obtain ⟨_, found', -, bank⟩ := seated occupied
      obtain rfl := Option.mem_unique found found'
      exact bank
    · intro v w value other position ne found found' at_v at_w
      by_contra live
      simp only [not_or, Bool.not_eq_true] at live
      exact ne (apart found found' ⟨at_v, live.1⟩ ⟨at_w, live.2⟩)
  · rintro ⟨names, banks, apart⟩
    refine ⟨fun {r v} occupied => ?_, fun found position =>
      (names _ _).mpr ⟨_, found, position⟩, ?_⟩
    · obtain ⟨value, found, position⟩ := (names r v).mp occupied
      exact ⟨value, found, position, banks r v value occupied found⟩
    · intro v w value other position found found' claims claims'
      by_contra ne
      have stale := apart v w value other position ne found found' claims.1 claims'.1
      simp [claims.2, claims'.2] at stale

end Context

/-- The content is at the position, in the form in which registers hold values of the type. -/
def Hardware.Holds (hw : Hardware) (p : Placement) (s : MachineState) (ty : Ty)
    (pos : Position) (content : Content) : Prop :=
  (∀ w, content = .word w → hw.Canonical ty w) ∧
    match pos with
    | .register r => content = .word (s.registers r)
    | place => ∃ cell, place.cell? = some cell ∧ hw.read ty s.memory (p.address cell) = content

/-- The bookkeeping is in order and the machine holds what it says. Memory belongs to a value
as its home or as the position that it has outside the registers. -/
structure Consistent (hw : Hardware) (p : Placement) (content : ValueId → Content) (c : Context)
    (s : MachineState) : Prop where
  checked : c.check = .ok ()
  located : ∀ {v value place}, c.values.get? v = some value → value.standing.Owns place →
    ∃ cell, place.cell? = some cell ∧ cell.Inside value.ty.size c.extent
  apart : ∀ {v w value other place place' cell cell'}, v ≠ w → c.values.get? v = some value →
    c.values.get? w = some other → value.standing.Owns place → other.standing.Owns place' →
    place.cell? = some cell → place'.cell? = some cell' →
      cell.Apart value.ty.size cell' other.ty.size
  backed : ∀ {r v value}, c.registers.occupant? r = some v → c.values.get? v = some value →
    value.isNamed = true → value.isDirty = true ∨ value.home?.isSome
  holds : ∀ {v value pos}, c.values.get? v = some value → value.position = some pos →
    hw.Holds p s value.ty pos (content v)
  written : ∀ {v value r home}, c.values.get? v = some value → value.isNamed = true →
    value.position = some (.register r) → value.home? = some home → value.isDirty = false →
    hw.Holds p s value.ty home (content v)

section
variable {content : ValueId → Content} {s : MachineState}

theorem Hardware.Holds.read {ty : Ty} {cell : Cell} {found : Content}
    (holds : hw.Holds p s ty place found) (is_cell : place.cell? = some cell) :
    hw.read ty s.memory (p.address cell) = found := by
  cases place with
  | register r => cases is_cell
  | _ =>
    obtain ⟨_, cell', is_cell', read⟩ := holds
    rw [is_cell] at is_cell'
    cases is_cell'
    exact read

theorem Context.value_of_standing {st : Standing} (standing : c.books.standing v = some st) :
    ∃ value, c.values.get? v = some value ∧ st = value.standing := by
  simp only [books, Option.map_eq_some_iff] at standing
  obtain ⟨value, found, same⟩ := standing
  exact ⟨value, found, same.symm⟩

theorem Consistent.tracks (consistent : Consistent hw p content c s)
    (sized : ∀ {r v value}, c.registers.occupant? r = some v → c.values.get? v = some value →
      value.ty.RegisterSized) : Tracks hw p content c.books s := by
  obtain ⟨occupants, owned, -⟩ := check_ok_iff.mp consistent.checked
  constructor
  case held =>
    intro r v occupied
    obtain ⟨value, found, pos, bank⟩ := occupants occupied
    exact ⟨_, standing_books found, pos, bank, sized occupied found,
      (consistent.holds found pos).2, consistent.backed occupied found⟩
  case owned =>
    intro v st r standing pos
    obtain ⟨value, found, rfl⟩ := value_of_standing standing
    exact owned found pos
  case canonical =>
    intro v st w standing positioned is_word
    obtain ⟨value, found, rfl⟩ := value_of_standing standing
    obtain ⟨pos, is_position⟩ := Option.isSome_iff_exists.mp positioned
    exact (consistent.holds found is_position).1 w is_word
  case located =>
    intro v st place standing owns
    obtain ⟨value, found, rfl⟩ := value_of_standing standing
    exact consistent.located found owns
  case apart =>
    intro v w st su place place' cell cell' ne standing standing' owns owns' is_cell is_cell'
    obtain ⟨value, found, rfl⟩ := value_of_standing standing
    obtain ⟨other, found', rfl⟩ := value_of_standing standing'
    exact consistent.apart ne found found' owns owns' is_cell is_cell'
  case current =>
    intro v st place cell standing current is_cell
    obtain ⟨value, found, rfl⟩ := value_of_standing standing
    rcases current with ⟨pos, _⟩ | ⟨home, clean, r, pos⟩
    · exact (consistent.holds found pos).read is_cell
    · have named : value.isNamed = true := by
        have homed : value.home? = some place := home
        cases h : value.kind <;> simp_all [Value.home?, Value.isNamed, Value.named?]
      exact (consistent.written found named pos home clean).read is_cell

theorem Tracks.position_unique (tracks : Tracks hw p content c.books s)
    {w : ValueId} {other : Value} (found : c.values.get? v = some value)
    (found' : c.values.get? w = some other) (at_v : value.position = some pos)
    (at_w : other.position = some pos) : v = w := by
  have standing := standing_books found
  have standing' := standing_books found'
  cases pos with
  | register r =>
    have held := tracks.owned standing at_v
    rw [tracks.owned standing' at_w] at held
    exact (Option.some.inj held).symm
  | _ =>
    by_contra ne
    have owns : value.standing.Owns _ := .inl ⟨at_v, rfl⟩
    have owns' : other.standing.Owns _ := .inl ⟨at_w, rfl⟩
    obtain ⟨cell, is_cell, _⟩ := tracks.located standing owns
    have apart := tracks.apart ne standing standing' owns owns' is_cell is_cell
    simp only [Cell.Apart, ne_eq, not_true_eq_false, false_or] at apart
    omega

theorem Tracks.consistent (tracks : Tracks hw p content c.books s) :
    Consistent hw p content c s := by
  have holds {v : ValueId} {value : Value} {place : Position} (found : c.values.get? v = some value)
      (positioned : value.position.isSome) (current : value.standing.Current place) :
      hw.Holds p s value.ty place (content v) := by
    have standing := standing_books found
    refine ⟨fun w is_word => tracks.canonical standing positioned is_word, ?_⟩
    obtain ⟨cell, is_cell, _⟩ := tracks.located standing current.owns
    have read := tracks.current standing current is_cell
    cases place with
    | register r => cases is_cell
    | _ => exact ⟨cell, is_cell, read⟩
  constructor
  case checked =>
    refine check_ok_iff.mpr ⟨fun {r v} occupied => ?_, fun found pos => ?_, ?_⟩
    · obtain ⟨st, standing, pos, bank, _⟩ := tracks.held occupied
      obtain ⟨value, found, rfl⟩ := value_of_standing standing
      exact ⟨value, found, pos, bank⟩
    · exact tracks.owned (standing_books found) pos
    · exact fun found found' claims claims' =>
        tracks.position_unique found found' claims.1 claims'.1
  case located => exact fun found owns => tracks.located (standing_books found) owns
  case apart =>
    exact fun ne found found' owns owns' is_cell is_cell' => tracks.apart ne
      (standing_books found) (standing_books found') owns owns' is_cell is_cell'
  case backed =>
    intro r v value occupied found
    have standing := standing_books found
    exact (tracks.seated standing ((tracks.occupant_iff standing).mp occupied)).2.2.2
  case holds =>
    intro v value pos found is_position
    have standing := standing_books found
    cases pos with
    | register r =>
      exact ⟨fun w is_word => tracks.canonical standing
        (by simp [Value.standing, is_position]) is_word, (tracks.seated standing is_position).2.2.1⟩
    | _ => exact holds found (by simp [is_position]) (.inl ⟨is_position, rfl⟩)
  case written =>
    exact fun found _ pos home clean =>
      holds found (by simp [pos]) (.inr ⟨home, clean, _, pos⟩)

end

inductive RoomStep where
  /-- Find a register of a bank that may be overwritten. -/
  | take (bank : Bank)
  | vacate (r : Register)
  | displace (r : Register)
  | flush (v : ValueId)
  | flushAll
  | releaseEscaped
  | vacateAll
  deriving DecidableEq

namespace RoomStep

def run : RoomStep → Gen (Option Register)
  | take bank => some <$> Gen.obtainRegister bank
  | vacate r => do Gen.vacate r; return none
  | displace r => do Gen.displace r; return none
  | flush v => do Gen.flush v; return none
  | flushAll => do Gen.flushAll; return none
  | releaseEscaped => do Gen.releaseEscaped; return none
  | vacateAll => do Gen.vacateAll; return none

variable {c' : Context} {result : Option Register}

theorem walks (D : Discipline) (step : RoomStep) : D.Walks c step.run := by
  cases step with
  | take bank => exact walks_seq (walks_obtainRegister bank) (walks_pure _)
  | vacate r => exact walks_seq (walks_vacate r) (walks_pure _)
  | displace r => exact walks_seq (walks_displace r) (walks_pure _)
  | flush v => exact walks_seq (walks_flush v) (walks_pure _)
  | flushAll => exact walks_seq walks_flushAll (walks_pure _)
  | releaseEscaped =>
    exact walks_seq walks_releaseEscaped (walks_pure _)
  | vacateAll => exact walks_seq walks_vacateAll (walks_pure _)

theorem runs_silent {x : Gen Unit}
    (run : Gen.Runs (do x; return none : Gen (Option Register)) c result c') :
    result = none ∧ Gen.Runs x c () c' := by
  simp only [Gen.runs_bind, Gen.runs_pure] at run
  obtain ⟨_, _, run, rfl, rfl⟩ := run
  exact ⟨rfl, run⟩

theorem carries {step : RoomStep} (run : Gen.Runs step.run c result c') :
    Carries hw p id c c' ∧ ∀ r, result = some r →
      c'.registers.occupant? r = none ∧ c'.registers.isLocked r = false := by
  have silent {x : Gen Unit} (carried : ∀ {u}, Gen.Runs x c u c' → Carries hw p id c c')
      (run : Gen.Runs (do x; return none : Gen (Option Register)) c result c') :
      Carries hw p id c c' ∧ ∀ r, result = some r →
        c'.registers.occupant? r = none ∧ c'.registers.isLocked r = false := by
    obtain ⟨rfl, silent_run⟩ := runs_silent run
    exact ⟨carried silent_run, fun r given => by cases given⟩
  cases step with
  | take bank =>
    obtain ⟨r, obtain_run, rfl⟩ := Gen.runs_map.mp run
    have obtained : Obtains hw p bank c r c' := obtainRegister_obtains obtain_run
    refine ⟨obtained.room.carries, fun q given => ?_⟩
    cases given
    exact ⟨obtained.empty, (obtained.room.isLocked r).trans obtained.unlocked⟩
  | vacate r => exact silent (fun run => (vacate_room run).1.carries) run
  | displace r => exact silent (fun run => (displace_carries run).1) run
  | flush v => exact silent (fun run => (flush_room run).carries) run
  | flushAll => exact silent (fun run => (flushAll_room run).carries) run
  | releaseEscaped => exact silent (fun run => (releaseEscaped_room run).1.carries) run
  | vacateAll => exact silent (fun run => (vacateAll_room run).1.carries) run

end RoomStep

/-- Making room loses nothing. Running exactly the code that a step wrote leaves the machine
consistent with the new context, for the same contents. Variables that had a position have
one, as have temporaries with uses to come; locked registers keep their words, and a register
that the step gives is empty and unlocked. -/
theorem making_room_keeps_contents {hw : Hardware} {p : Placement} {content : ValueId → Content}
    {c c' : Context} {s : MachineState} {result : Option Register} (step : RoomStep)
    (consistent : Consistent hw p content c s)
    (sized : ∀ {r v value}, c.registers.occupant? r = some v → c.values.get? v = some value →
      value.ty.RegisterSized)
    (run : Gen.Runs step.run c result c') (separate : p.Separates c'.extent) :
    ∃ code s', c'.code.toList = c.code.toList ++ code ∧ Instr.executeAll hw p code s = some s'
      ∧ Consistent hw p content c' s'
      ∧ (∀ {v value}, c.values.get? v = some value → value.position.isSome →
          value.isNamed = true ∨ (value.isUnnamed = true ∧ 0 < value.references) →
          ∃ value', c'.values.get? v = some value' ∧ value'.position.isSome)
      ∧ c'.registers.locked = c.registers.locked
      ∧ (∀ {r}, c.registers.isLocked r = true → s'.registers r = s.registers r)
      ∧ ∀ r, result = some r →
      c'.registers.occupant? r = none ∧ c'.registers.isLocked r = false := by
  obtain ⟨_, leads, locked⟩ := step.walks .free _ _ trivial run
  obtain ⟨carries, given⟩ : Carries hw p id c c' ∧ _ := RoomStep.carries run
  obtain ⟨s', ⟨code, written, ran⟩, tracks, secures, kept⟩ :=
    carries (consistent.tracks sized) separate
  refine ⟨code, s', written, ran, tracks.consistent, ?_, locked, kept, given⟩
  intro v value found positioned needed
  obtain ⟨value', found', _⟩ := leads.values found
  refine ⟨value', found', (secures found found').needed ?_ positioned⟩
  simpa [Value.isNeeded] using needed

def staticInRegister : Context :=
  { values := { values := #[{
      ty := .u64
      kind := .named { name := "x", storage := .static, dirty := true }
      description := "x"
      position := some (.register (.int 0)) }] }
    registers := RegisterFile.empty.setOccupant (.int 0) (some ⟨0⟩) }

/-- A machine that answers zero wherever it has a choice. -/
def Hardware.zero : Hardware where
  divideByZero _ _ := 0
  overshift _ _ _ := 0
  floatOp _ _ _ := 0
  floatNeg _ := 0
  floatHolds _ _ _ := false
  intToFloat _ _ := 0
  floatToInt _ _ := 0
  single _ := 0
  double _ := 0

def Placement.zero : Placement := ⟨fun _ => 0, 0, 0, 0, fun _ => 0, fun _ => 0⟩

theorem value_of_staticInRegister (found : staticInRegister.values.get? v = some value) :
    value.home? = none ∧ value.position = some (.register (.int 0)) ∧ value.ty = .u64
    ∧ value.isDirty = true := by
  obtain ⟨small, rfl⟩ := Array.getElem?_eq_some_iff.mp found
  have first : v.index = 0 := by simpa [staticInRegister] using small
  cases v
  cases first
  exact ⟨rfl, rfl, rfl, rfl⟩

theorem staticInRegister_consistent :
    Consistent .zero .zero (fun _ => .word 7) staticInRegister ⟨fun _ => 7, fun _ => 0⟩ := by
  have owns_nothing {v : ValueId} {value : Value} {place : Position}
      (found : staticInRegister.values.get? v = some value) : ¬value.standing.Owns place := by
    obtain ⟨homeless, pos, _⟩ := value_of_staticInRegister found
    rintro (⟨at_place, memory⟩ | home)
    · obtain rfl : Position.register (.int 0) = place :=
        Option.mem_unique pos at_place
      cases memory
    · cases homeless.symm.trans home
  constructor
  case checked => decide +kernel
  case located => exact fun found owns => (owns_nothing found owns).elim
  case apart => exact fun _ found _ owns => (owns_nothing found owns).elim
  case backed => exact fun _ found _ => .inl (value_of_staticInRegister found).2.2.2
  case holds =>
    intro v value pos found at_position
    obtain ⟨_, in_register, ty, _⟩ := value_of_staticInRegister found
    rw [in_register] at at_position
    cases at_position
    rw [ty]
    exact ⟨fun w is_word => by cases is_word; rfl, rfl⟩
  case written =>
    intro v value r home found _ _ homed
    cases (value_of_staticInRegister found).1.symm.trans homed

def staticVacated : Context := (Gen.outcome (RoomStep.vacate (.int 0)).run staticInRegister).2

theorem staticVacated_separate : Placement.zero.Separates staticVacated.extent := by
  have statics : staticVacated.statics.used = 8 := by decide +kernel
  have frames : staticVacated.frames.sizes = #[] := by decide +kernel
  have blobs : staticVacated.constants.blobs = #[] := by decide +kernel
  intro a b i j hi hj same
  cases a <;> cases b <;>
    simp only [Context.extent, Frames.size?, ConstantPool.get?, frames, blobs, statics,
      List.getElem?_toArray, List.getElem?_nil, Option.map_none, Option.getD_none, Nat.not_lt_zero]
      at hi hj
  exact ⟨rfl, Placement.offset_eq_of_address_eq (by omega) (by omega) same⟩

/-- The variable gets a home and is written there through a scratch pointer. -/
theorem vacate_static_keeps_contents :
    Gen.Runs (RoomStep.vacate (.int 0)).run staticInRegister none staticVacated
      ∧ ∃ code s', staticVacated.code.toList = staticInRegister.code.toList ++ code
        ∧ Instr.executeAll .zero .zero code ⟨fun _ => 7, fun _ => 0⟩ = some s'
        ∧ Consistent .zero .zero (fun _ => .word 7) staticVacated s' := by
  have run : Gen.Runs (RoomStep.vacate (.int 0)).run staticInRegister none staticVacated :=
    Prod.ext (by decide +kernel) rfl
  have sized {r : Register} {v : ValueId} {value : Value}
      (_ : staticInRegister.registers.occupant? r = some v)
      (found : staticInRegister.values.get? v = some value) : value.ty.RegisterSized := by
    rw [(value_of_staticInRegister found).2.2.1]
    decide
  obtain ⟨code, s', written, ran, consistent, _⟩ := making_room_keeps_contents (.vacate (.int 0))
    staticInRegister_consistent sized run staticVacated_separate
  exact ⟨run, code, s', written, ran, consistent⟩

end RegisterBackend
