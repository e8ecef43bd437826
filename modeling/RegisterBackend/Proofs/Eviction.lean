import RegisterBackend.Proofs.Execution
import RegisterBackend.Proofs.Progress

/-!
Making room in registers loses nothing. An eviction may evict again to get a scratch register, so
the steps are proved with the scratch register as a parameter and tied together by induction on the
number of unlocked registers.
-/
namespace RegisterBackend

open RegisterFile Context Discipline List MachineState Value ValueStore

variable {c c' c1 : Context} {gone more : Register → Prop} {hw : Hardware} {p : Placement}
  {f : Value → Value} {home target : Position} {new old value : Value}
  {r ptr src : Register} {v w : ValueId}

/-- The value may be read again: a variable always, a temporary while uses are to come. -/
def Value.isNeeded (v : Value) : Bool := v.isNamed || (v.isUnnamed && 0 < v.references)

/-- If the value may be read again it keeps a position, and in memory it stays where it is. -/
structure Value.Secured (old new : Value) : Prop where
  needed : old.isNeeded = true → old.position.isSome → new.position.isSome
  anchored : ∀ {place}, old.position = some place → place.isRegister = false →
    new.position = some place

theorem Value.Secured.congr {mid : Value} (secured : old.Secured mid)
    (same : new.position = mid.position) : old.Secured new where
  needed is_needed positioned := same ▸ secured.needed is_needed positioned
  anchored at_place memory := same.trans (secured.anchored at_place memory)

theorem Value.Secured.of_position (same : new.position = old.position) : old.Secured new :=
  congr ⟨fun _ => id, fun at_place _ => at_place⟩ same

theorem Value.Secured.of_register (pos : old.position = some (.register r))
    (needed : old.isNeeded = true → new.position.isSome) : old.Secured new where
  needed is_needed _ := needed is_needed
  anchored at_place memory := by
    cases pos.symm.trans at_place
    cases memory

abbrev Context.Unlocked (c : Context) (q : Register) : Prop := c.registers.isLocked q = false

def Context.Secures (c c' : Context) : Prop :=
  ∀ {v value value'}, c.values.get? v = some value → c'.values.get? v = some value' →
    value.Secured value'

/-- Registers are only emptied, and only those that may be `gone`; values keep the uses that
are counted for them, and a temporary with uses to come keeps a position. -/
structure Recedes (gone : Register → Prop) (c c' : Context) : Prop where
  leads : Leads c c'
  locked : c'.registers.locked = c.registers.locked
  occupant : ∀ {r}, ¬gone r → c'.registers.occupant? r = c.registers.occupant? r
  shrinks : c.Sheds c'
  remains : ∀ {v value value'}, c.values.get? v = some value → c'.values.get? v = some value' →
    value'.references = value.references ∧ value'.isEscaped = value.isEscaped
  keeps : ∀ {v value value'}, c.values.get? v = some value → c'.values.get? v = some value' →
    value.isUnnamed = true → 0 < value.references → value.position.isSome → value'.position.isSome

namespace Recedes

theorem mono (recedes : Recedes gone c c') (le : ∀ {r}, gone r → more r) : Recedes more c c' :=
  { recedes with occupant := fun kept => recedes.occupant fun is_gone => kept (le is_gone) }

theorem isLocked (recedes : Recedes gone c c') (r : Register) :
    c'.registers.isLocked r = c.registers.isLocked r := by
  rw [RegisterFile.isLocked, RegisterFile.isLocked, recedes.locked]

theorem isNeeded (recedes : Recedes gone c c') {value' : Value}
    (found : c.values.get? v = some value) (found' : c'.values.get? v = some value') :
    value'.isNeeded = value.isNeeded := by
  obtain ⟨_, same, ages⟩ := recedes.leads.values found
  rw [found'] at same
  cases same
  rw [Value.isNeeded, Value.isNeeded, isNamed_eq_of_nature ages.nature,
    isUnnamed_eq_of_nature ages.nature, (recedes.remains found found').1]

theorem trans (first : Recedes gone c c1) (second : Recedes gone c1 c') : Recedes gone c c' where
  leads := first.leads.trans second.leads
  locked := second.locked.trans first.locked
  occupant kept := (second.occupant kept).trans (first.occupant kept)
  shrinks occupied := first.shrinks (second.shrinks occupied)
  remains found found' := by
    obtain ⟨value1, found1, _⟩ := first.leads.values found
    obtain ⟨references, escaped⟩ := first.remains found found1
    obtain ⟨references', escaped'⟩ := second.remains found1 found'
    exact ⟨references'.trans references, escaped'.trans escaped⟩
  keeps found found' unnamed used positioned := by
    obtain ⟨value1, found1, ages⟩ := first.leads.values found
    refine second.keeps found1 found' ((isUnnamed_eq_of_nature ages.nature).trans unnamed) ?_
      (first.keeps found found1 unnamed used positioned)
    rwa [(first.remains found found1).1]

theorem of_same (leads : Leads c c') (values : c'.values = c.values)
    (registers : c'.registers = c.registers) : Recedes gone c c' where
  leads := leads
  locked := by rw [registers]
  occupant _ := by rw [registers]
  shrinks occupied := registers ▸ occupied
  remains found found' := by
    rw [values, found] at found'
    cases found'
    exact ⟨rfl, rfl⟩
  keeps found found' _ _ positioned := by
    rw [values, found] at found'
    cases found'
    exact positioned

theorem eq_or_eq (found : c.values.get? v = some value) (values : c'.values = c.values.modify v f)
    (found_w : c.values.get? w = some old) (found' : c'.values.get? w = some new) :
    w = v ∧ old = value ∧ new = f value ∨ new = old := by
  rw [values, get?_modify] at found'
  split at found'
  · next same =>
    subst same
    simp_all
  · simp_all

theorem of_value (walked : Leads c c' ∧ c'.registers.locked = c.registers.locked)
    (occupant : ∀ {r}, ¬gone r → c'.registers.occupant? r = c.registers.occupant? r)
    (shrinks : ∀ {r w}, c'.registers.occupant? r = some w → c.registers.occupant? r = some w)
    (found : c.values.get? v = some value) (values : c'.values = c.values.modify v f)
    (remains : (f value).references = value.references ∧ (f value).isEscaped = value.isEscaped)
    (keeps : value.isUnnamed = true → 0 < value.references → value.position.isSome →
      (f value).position.isSome) : Recedes gone c c' where
  leads := walked.1
  locked := walked.2
  occupant := occupant
  shrinks := shrinks
  remains found_w found' := by
    obtain ⟨rfl, rfl, rfl⟩ | rfl := eq_or_eq found values found_w found'
    · exact remains
    · exact ⟨rfl, rfl⟩
  keeps found_w found' unnamed used positioned := by
    obtain ⟨rfl, rfl, rfl⟩ | rfl := eq_or_eq found values found_w found'
    · exact keeps unnamed used positioned
    · exact positioned

theorem holding (inner : Recedes gone (c.withLock r true) c1) :
    Recedes gone c (c1.withLock r (c.registers.isLocked r)) where
  leads := (Leads.withLock c r true).trans (inner.leads.trans (.withLock _ _ _))
  locked := locked_restored inner.locked
  occupant kept := by
    have same := inner.occupant kept
    simpa only [Context.withLock, occupant?_setLocked] using same
  shrinks occupied := by
    have before := inner.shrinks (r := _) (v := _)
      (by simpa only [Context.withLock, occupant?_setLocked] using occupied)
    simpa only [Context.withLock, occupant?_setLocked] using before
  remains found found' := inner.remains (c := c.withLock r true) found found'
  keeps found found' := inner.keeps (c := c.withLock r true) found found'

end Recedes

/-- Whatever the books of the first context say of the machine, those of the second say it
after the code written in between. The code may end with an `effect` that is still to be
accounted for. -/
def Carries (hw : Hardware) (p : Placement) (effect : MachineState → MachineState)
    (c c' : Context) : Prop :=
  ∀ {content s}, Tracks hw p content c.books s → p.Separates c'.extent →
    ∃ s', Executes hw p c s c' (effect s') ∧ Tracks hw p content c'.books s' ∧ c.Secures c'
      ∧ ∀ {r}, c.registers.isLocked r = true → s'.registers r = s.registers r

structure MakesRoom (hw : Hardware) (p : Placement) (gone : Register → Prop)
    (effect : MachineState → MachineState) (c c' : Context) : Prop extends Recedes gone c c' where
  carries : Carries hw p effect c c'

namespace MakesRoom
variable {effect : MachineState → MachineState}

theorem mono (room : MakesRoom hw p gone effect c c') (le : ∀ {r}, gone r → more r) :
    MakesRoom hw p more effect c c' :=
  ⟨room.toRecedes.mono le, room.carries⟩

theorem trans (first : MakesRoom hw p gone id c c1) (second : MakesRoom hw p gone effect c1 c') :
    MakesRoom hw p gone effect c c' := by
  refine ⟨first.toRecedes.trans second.toRecedes, fun tracks separate => ?_⟩
  obtain ⟨s1, ran, tracks1, secures, kept⟩ :=
    first.carries tracks (separate.mono second.leads.extent)
  obtain ⟨s', ran', tracks', secures', kept'⟩ := second.carries tracks1 separate
  refine ⟨s', ran.trans ran', tracks', fun found found' => ?_, fun is_locked => ?_⟩
  · obtain ⟨value1, found1, _⟩ := first.leads.values found
    have before := secures found found1
    have after := secures' found1 found'
    exact ⟨fun needed positioned => after.needed ((first.isNeeded found found1).trans needed)
      (before.needed needed positioned), fun at_place memory =>
      after.anchored (before.anchored at_place memory) memory⟩
  · rw [kept' ((first.isLocked _).trans is_locked), kept is_locked]

theorem of_same (leads : Leads c c') (values : c'.values = c.values)
    (registers : c'.registers = c.registers) (extent : c'.extent = c.extent)
    (runs : ∀ s, Executes hw p c s c' (effect s)) : MakesRoom hw p gone effect c c' := by
  refine ⟨.of_same leads values registers, fun {content s} tracks _ => ?_⟩
  have books : c'.books = c.books := books_eq values (fun _ => by rw [registers]) extent
  refine ⟨s, runs s, books ▸ tracks, fun found found' => .of_position ?_, fun _ => rfl⟩
  rw [values, found] at found'
  cases found'
  rfl

theorem refl (c : Context) : MakesRoom hw p gone id c c :=
  of_same (.refl c) rfl rfl rfl fun _ => .of_code rfl

theorem of_value (recedes : Recedes gone c c') (found : c.values.get? v = some value)
    (values : c'.values = c.values.modify v f)
    (carries : ∀ {content s}, Tracks hw p content c.books s → p.Separates c'.extent →
      ∃ s', Executes hw p c s c' (effect s') ∧ Tracks hw p content c'.books s'
        ∧ value.Secured (f value) ∧ ∀ {r}, c.registers.isLocked r = true →
        s'.registers r = s.registers r) : MakesRoom hw p gone effect c c' := by
  refine ⟨recedes, fun tracks separate => ?_⟩
  obtain ⟨s', ran, tracks', secured, kept⟩ := carries tracks separate
  refine ⟨s', ran, tracks', fun found_w found' => ?_, kept⟩
  obtain ⟨rfl, rfl, rfl⟩ | rfl := Recedes.eq_or_eq found values found_w found'
  · exact secured
  · exact .of_position rfl

theorem through {w : Word} (room : MakesRoom hw p gone (fun s => effect (s.set ptr w)) c c')
    (empty : c'.registers.occupant? ptr = none) (unlocked : c.registers.isLocked ptr = false) :
    MakesRoom hw p gone effect c c' := by
  refine ⟨room.toRecedes, fun tracks separate => ?_⟩
  obtain ⟨s', ran, tracks', secures, kept⟩ := room.carries tracks separate
  refine ⟨s'.set ptr w, ran, tracks'.set empty w, secures, fun {r} is_locked => ?_⟩
  have other : r ≠ ptr := by
    rintro rfl
    simp [unlocked] at is_locked
  rw [registers_set, if_neg other, kept is_locked]

theorem holding (inner : MakesRoom hw p gone effect (c.withLock r true) c1) :
    MakesRoom hw p gone effect c (c1.withLock r (c.registers.isLocked r)) := by
  refine ⟨inner.toRecedes.holding, fun {content s} tracks separate => ?_⟩
  obtain ⟨s', ran, tracks', secures, kept⟩ := inner.carries (by simpa using tracks) separate
  exact ⟨s', ran, by simpa using tracks', secures, fun is_locked =>
    kept (isLocked_lock r is_locked)⟩

theorem sparing (room : MakesRoom hw p
      (c.withLock r true).Unlocked effect c c') :
    MakesRoom hw p (fun q => c.Unlocked q ∧ q ≠ r) effect c c' := by
  refine ⟨{ room.toRecedes with occupant := fun {q} kept => ?_ }, room.carries⟩
  by_cases range : q.inRange = true
  · refine room.occupant fun unlocked => kept ⟨?_, ?_⟩
    · by_contra is_locked
      rw [Bool.not_eq_false] at is_locked
      exact Bool.false_ne_true (unlocked.symm.trans (isLocked_lock r is_locked))
    · rintro rfl
      exact Bool.false_ne_true (unlocked.symm.trans (isLocked_lock_self _ range))
  · rw [occupant?_of_not_inRange range, occupant?_of_not_inRange range]

end MakesRoom

namespace Context
variable {bank : Bank}

theorem mem_candidates : (r, v) ∈ c.candidates bank ↔
    r.bank = bank ∧ c.registers.occupant? r = some v ∧ c.registers.isLocked r = false := by
  simp [candidates, mem_occupied, and_assoc]

theorem findCandidate_some {p : Value → Bool} {candidates : List (Register × ValueId)}
    (found : c.findCandidate p candidates = .ok (some r)) :
    ∃ v value, (r, v) ∈ candidates ∧ c.values.get? v = some value ∧ p value = true := by
  induction candidates with
  | nil => cases found
  | cons head rest ih =>
    obtain ⟨q, v⟩ := head
    rw [findCandidate] at found
    split at found
    · cases found
    · next value known =>
      split at found
      · next accepted =>
        cases found
        exact ⟨v, value, by simp, known, accepted⟩
      · obtain ⟨w, value', member, rest_found⟩ := ih found
        exact ⟨w, value', by simp [member], rest_found⟩

theorem oldest_mem (c : Context) (first : Register × ValueId) (rest : List (Register × ValueId)) :
    ∃ v, (c.oldest first rest, v) ∈ first :: rest := by
  induction rest generalizing first with
  | nil => exact ⟨first.2, by simp [oldest]⟩
  | cons next rest ih =>
    rw [oldest]
    split
    · obtain ⟨v, member⟩ := ih next
      exact ⟨v, by simp [mem_cons.mp member]⟩
    · obtain ⟨v, member⟩ := ih first
      rcases mem_cons.mp member with head | tail
      · exact ⟨v, by simp [head]⟩
      · exact ⟨v, by simp [tail]⟩

theorem choose_cases {choice : Choice} (chosen : c.choose bank = .ok choice) : match choice with
    | .free r => r ∈ c.registers.free bank
    | .drop r => ∃ v value, (r, v) ∈ c.candidates bank ∧ c.values.get? v = some value
        ∧ (value.isDead = true ∨ value.isClean = true)
    | .evict r => ∃ v, (r, v) ∈ c.candidates bank := by
  unfold choose at chosen
  split at chosen
  · next free =>
    cases chosen
    simp [free]
  · split at chosen
    · cases chosen
    · next first rest candidates =>
      rw [candidates]
      split at chosen
      · cases chosen
      · next found =>
        cases chosen
        obtain ⟨v, value, member, known, dead⟩ := findCandidate_some found
        exact ⟨v, value, member, known, .inl dead⟩
      · split at chosen
        · cases chosen
        · next found =>
          cases chosen
          obtain ⟨v, value, member, known, clean⟩ := findCandidate_some found
          exact ⟨v, value, member, known, .inr clean⟩
        · cases chosen
          exact oldest_mem c first rest

end Context

section
open Gen
variable {u : Unit}

theorem RegisterFile.occupant?_emptied {f : RegisterFile} {q : Register} (range : r.inRange = true)
    (occupied : (f.setOccupant r none).occupant? q = some w) : f.occupant? q = some w := by
  rw [occupant?_setOccupant _ _ _ range] at occupied
  split at occupied
  · cases occupied
  · exact occupied

section
variable (run : Runs (unbindRegister r) c v c')
include run

theorem unbindRegister_room
    (spent : ∀ {value}, c.values.get? v = some value → value.isUnnamed = true →
      value.references = 0) : MakesRoom hw p (· = r) id c c' := by
  have walked := (walks_unbindRegister (D := .free) r _ _ trivial run).2
  obtain ⟨value, found, occupied, range, pos, clean, remarks, only, rfl⟩ :=
    runs_unbindRegister run
  have unused (unnamed : value.isUnnamed = true) (used : 0 < value.references) {p : Prop} : p :=
    absurd (spent found unnamed) used.ne'
  refine .of_value (.of_value walked (fun kept => ?_) (occupant?_emptied range) found rfl
    ⟨rfl, rfl⟩ fun unnamed used _ => unused unnamed used) found rfl
    fun {content s} tracks _ => ⟨s, .remarks (fun i member => (only i member).remark) rfl, ?_,
      .of_register pos fun needed => ?_, fun _ => rfl⟩
  · rw [occupant?_setOccupant _ _ _ range, if_neg kept]
  · rw [books_relocated range none found]
    exact tracks.release (standing_books found) pos clean
  · have backed := (tracks.seated (standing_books found) pos).2.2.2
    simp only [Value.standing, clean, Bool.false_eq_true, false_or] at backed
    simp only [Value.isNeeded, Bool.or_eq_true, Bool.and_eq_true, decide_eq_true_eq] at needed
    rcases needed with named | ⟨unnamed, used⟩
    · exact backed named
    · exact unused unnamed used

theorem occupied_of_unbindRegister : c.registers.occupant? r = some v := by
  obtain ⟨_, _, occupied, _⟩ := runs_unbindRegister run
  exact occupied

theorem occupant?_of_unbindRegister : c'.registers.occupant? r = none := by
  obtain ⟨value, _, _, range, _, _, remarks, _, rfl⟩ := runs_unbindRegister run
  rw [occupant?_setOccupant _ _ _ range, if_pos rfl]

end

theorem occupant?_of_spill (run : Runs (spill v r) c u c') : c'.registers.occupant? r = none := by
  obtain ⟨_, _, _, _, _, _, range, _, rfl⟩ := runs_spill run
  rw [occupant?_setOccupant _ _ _ range, if_pos rfl]

theorem spill_room (found : c.values.get? v = some value) (unnamed : value.isNamed = false)
    (occupied : c.registers.occupant? r = some v) (run : Runs (spill v r) c u c') :
    MakesRoom hw p (· = r) id c c' := by
  have walked :=
    (walks_spill (D := .free) found unnamed (.inl occupied) _ _ trivial run).2
  obtain ⟨_, slot, c1, _, same, hands, range, _, rfl⟩ := runs_spill run
  obtain rfl := Option.mem_unique found same
  have registers : c1.registers = c.registers := by cases hands; rfl
  have found1 : c1.values.get? v = some value := by rw [hands.values, found]
  have values := congrArg (·.modify v ({ · with position := some (.stack slot) })) hands.values
  refine .of_value (.of_value walked (fun kept => ?_) (fun occupied => ?_) found values ⟨rfl, rfl⟩
    fun _ _ _ => rfl) found values fun {content s} tracks separate => ?_
  · rw [occupant?_setOccupant _ _ _ range, if_neg kept, registers]
  · rw [← registers]
    exact occupant?_emptied range occupied
  · obtain ⟨cell, is_cell, beyond, inside⟩ := hands.cell
    have standing := standing_books found
    have pos := (tracks.occupant_iff standing).mp occupied
    have sized : value.ty.RegisterSized := (tracks.seated standing pos).2.1
    have stored := tracks.spill separate standing pos is_cell
      (Leads.hands hands fun _ => ⟨slot, rfl⟩).extent beyond inside
    refine ⟨s.write (p.address cell) (hw.deposit r.bank (s.registers r) value.ty.size), ?_, ?_,
      .of_register pos fun _ => rfl, fun _ => rfl⟩
    · refine (Executes.of_code hands.code).trans (Executes.pushed (c := c1) ?_)
      simp only [Instr.execute, sized.toUInt8_toNat, Placement.slot_eq_address is_cell, id_eq]
    · rw [books_spilled range found1, hands.books]
      exact stored

theorem homeOf_room (run : Runs (homeOf v) c home c') : MakesRoom hw p gone id c c' := by
  have walked := (walks_homeOf (D := .free) v _ _ trivial run).2
  obtain ⟨value, named, found, is_named, ⟨_, rfl⟩ | ⟨fresh, _, _, c1, hands, rfl⟩⟩ :=
    runs_homeOf run
  · exact .refl _
  have registers : c1.registers = c.registers := by cases hands <;> rfl
  have found1 : c1.values.get? v = some value := by rw [hands.values, found]
  have kind : value.kind = .named named := by
    cases h : value.kind <;> simp only [named?, h] at is_named <;> cases is_named
    rfl
  have values := congrArg (·.modify v (·.mapNamed fun _ => { named with home := some home }))
    hands.values
  refine .of_value
    (.of_value walked (fun _ => by rw [registers]) (fun occupied => registers ▸ occupied)
    found values (by simp [mapNamed, kind, isEscaped, named?])
    fun unnamed => by simp [isUnnamed, kind] at unnamed) found values
    fun {content s} tracks _ => ⟨s, .of_code hands.code, ?_, ?_, fun _ => rfl⟩
  · obtain ⟨cell, is_cell, beyond, inside⟩ := hands.cell
    have granted := tracks.grant (standing_books found)
      (by simp [Value.standing, isNamed, is_named])
      (by simp [Value.standing, Value.home?, is_named, fresh]) is_cell
      (fun area => (walked.1.extent area)) beyond inside
    have books := books_modify (f := (·.mapNamed fun _ => { named with home := some home }))
      found1
    rw [standing_mapNamed is_named, hands.books] at books
    have dirty : value.standing.dirty = named.dirty := by
      simp [Value.standing, isDirty, is_named]
    rw [books]
    rw [← dirty]
    exact granted
  · exact .of_position (by simp [mapNamed, kind])

/-- A register was obtained: it is empty and may be overwritten. -/
structure Obtains (hw : Hardware) (p : Placement) (bank : Bank) (c : Context) (r : Register)
    (c' : Context) : Prop where
  room : MakesRoom hw p c.Unlocked id c c'
  empty : c'.registers.occupant? r = none
  unlocked : c.registers.isLocked r = false
  bank : r.bank = bank
  range : r.inRange = true

section
variable {scratch : Gen Register}
  (obtains : ∀ {c q c'}, Runs scratch c q c' → Obtains hw p .int c q c')
include obtains

theorem pointerStore_room {size : UInt8} (run : Runs (holding src do
      let ptr ← scratch
      loadAddress ptr target
      emit (.storePtr ptr src size)) c u c') :
    MakesRoom hw p (fun q => c.Unlocked q ∧ q ≠ src)
      (hw.stored p src target size.toNat) c c' := by
  obtain ⟨_, block, rfl⟩ := runs_holding.mp run
  simp only [runs_bind, runs_emit] at block
  obtain ⟨ptr, c1, taken, _, _, addressed, rfl⟩ := block
  obtain ⟨memory, instrs, rfl, _, address_ok⟩ := runs_loadAddress addressed
  have obtained := obtains taken
  refine .sparing (.holding (obtained.room.trans (.through (w := p.locate target)
    (.of_same ((Leads.appended _ _).trans (.pushed _ _)) rfl rfl rfl fun s => ?_)
    obtained.empty ((obtained.room.isLocked ptr).trans obtained.unlocked))))
  refine (Executes.appended (address_ok hw p s)).trans (Executes.pushed ?_)
  cases target with
  | register r => cases memory
  | _ => simp [Instr.execute, Hardware.stored]

theorem storeVia_room {ty : Ty} (run : Runs (storeVia scratch src target ty) c u c') :
    MakesRoom hw p (fun q => c.Unlocked q ∧ q ≠ src)
      (hw.stored p src target ty.size.toUInt8.toNat) c c' := by
  -- Code without a scratch register needs no room.
  have plain {i : Instr} (emitted : Runs (emit i) c u c') (ok : ∀ s, i.execute hw p s
      = some (hw.stored p src target ty.size.toUInt8.toNat s)) :
      MakesRoom hw p (fun q => c.Unlocked q ∧ q ≠ src)
        (hw.stored p src target ty.size.toUInt8.toNat) c c' := by
    obtain rfl := runs_emit.mp emitted
    exact .of_same (.pushed c i) rfl rfl rfl fun s => .pushed (ok s)
  unfold storeVia at run
  cases target with
  | register dst =>
    obtain ⟨_, run⟩ | ⟨same, run⟩ := runs_ite.mp run
    · exact plain run fun s => rfl
    · obtain ⟨_, rfl⟩ := runs_pure.mp run
      obtain rfl : src = dst := by simpa using same
      refine .of_same (.refl _) rfl rfl rfl fun s => ?_
      rw [Hardware.stored, set_self rfl]
      exact .of_code rfl
  | stack slot => exact plain run fun s => rfl
  | static offset | constant id => exact pointerStore_room obtains run

theorem writeBackVia_room
    (seated : ∀ {content s}, Tracks hw p content c.books s → c.registers.occupant? r = some v)
    (run : Runs (writeBackVia scratch v r) c u c') :
    MakesRoom hw p (fun q => c.Unlocked q ∧ q ≠ r) id c c' := by
  simp only [writeBackVia, runs_bind, runs_valueOf, runs_updateValue, runs_record, and_assoc,
    exists_and_left, exists_eq_left] at run
  obtain ⟨home, c1, homed, value, found, _, c2, stored, ⟨value2, found2⟩, _, rfl⟩ := run
  have room : MakesRoom hw p (fun q => c.Unlocked q ∧ q ≠ r) id c c1 := homeOf_room homed
  have store : MakesRoom hw p (fun q => c.Unlocked q ∧ q ≠ r) _ c1 c2 :=
    (storeVia_room obtains stored).mono fun {q} unlocked => by
      rwa [Context.Unlocked, room.isLocked] at unlocked
  have leads : Leads c2 { c2 with
      values := c2.values.modify v (·.setDirty false), statistics := c2.statistics.addSpill } :=
    (Leads.modify c2 v fun _ => ages_setDirty _ _).trans
      (.of_same rfl rfl prefix_rfl rfl rfl rfl rfl)
  have cleaned : Recedes (fun q => c.Unlocked q ∧ q ≠ r) c2 { c2 with
      values := c2.values.modify v (·.setDirty false), statistics := c2.statistics.addSpill } :=
    .of_value ⟨leads, rfl⟩ (fun _ => rfl) id found2 rfl (remains_setDirty _ _)
      fun _ _ positioned => by rwa [position_setDirty]
  have whole := room.trans store
  refine ⟨whole.toRecedes.trans cleaned, fun {content s} tracks separate => ?_⟩
  obtain ⟨s2, ran, tracks2, secures, kept⟩ := whole.carries tracks separate
  -- The scratch register was not found in `r`, so the variable is still there.
  have occupied2 : c2.registers.occupant? r = some v := by
    rw [whole.occupant (by simp), seated tracks]
  have standing := standing_books found2
  have pos := (tracks2.occupant_iff standing).mp occupied2
  obtain ⟨_, found2', ages⟩ := store.leads.values found
  obtain rfl : value2 = _ := Option.mem_unique found2 found2'
  obtain ⟨_, found', is_home⟩ := home?_of_homeOf homed
  obtain rfl : value = _ := Option.mem_unique found found'
  have homed2 : value2.standing.home = some home := ages.home is_home
  obtain ⟨cell, is_cell, _⟩ := tracks2.located standing (.inr homed2)
  have sized : value2.ty.RegisterSized := (tracks2.seated standing pos).2.1
  have written := tracks2.writeBack separate standing pos homed2 is_cell
  rw [Hardware.stored_of_cell is_cell, ← ages.ty, sized.toUInt8_toNat] at ran
  refine ⟨_, ran.trans (.of_code rfl), ?_, fun found_w found' => ?_, kept⟩
  · have books : { c2 with
        values := c2.values.modify v (·.setDirty false)
        statistics := c2.statistics.addSpill }.books = _ := books_modify (c := c2) found2
    rw [books, standing_setDirty, Bool.and_false]
    exact written
  · obtain ⟨value', found_w', _⟩ := whole.leads.values found_w
    have still := secures found_w found_w'
    obtain ⟨rfl, rfl, rfl⟩ | rfl := Recedes.eq_or_eq found2 rfl found_w' found'
    · exact still.congr (position_setDirty _ _)
    · exact still

theorem vacateVia_room (run : Runs (vacateVia scratch r) c u c') :
    MakesRoom hw p (fun q => c.Unlocked q ∨ q = r) id c c'
      ∧ c'.registers.occupant? r = none := by
  obtain ⟨range, run⟩ := runs_occupantOf_bind.mp run
  cases occupied : c.registers.occupant? r with
  | none => simp [occupied] at run
  | some v =>
    simp only [occupied] at run
    obtain ⟨value, found, run⟩ := runs_valueOf_bind.mp run
    obtain ⟨spare, run⟩ | ⟨_, run⟩ := runs_ite.mp run
    · obtain ⟨w, unbound⟩ := runs_discard.mp run
      refine ⟨(unbindRegister_room unbound fun {value'} found' unnamed => ?_).mono .inr,
        occupant?_of_unbindRegister unbound⟩
      obtain rfl : v = w := by simpa [occupied] using occupied_of_unbindRegister unbound
      obtain rfl : value = value' := by simpa [found] using found'
      cases h : value.kind <;> simp_all [needsStore, isUnnamed]
    obtain ⟨named, run⟩ | ⟨unnamed, run⟩ := runs_ite.mp run
    · simp only [runs_bind, runs_discard] at run
      obtain ⟨_, c1, written, w, unbound⟩ := run
      have room := writeBackVia_room obtains (fun _ => occupied) written
      refine ⟨(room.mono fun gone => .inl gone.1).trans
        ((unbindRegister_room unbound fun {value'} found' unnamed => ?_).mono .inr),
        occupant?_of_unbindRegister unbound⟩
      obtain rfl : v = w := by
        have held := room.shrinks (occupied_of_unbindRegister unbound)
        simpa [occupied] using held
      obtain ⟨value1, found1, ages⟩ := room.leads.values found
      obtain rfl : value1 = value' := by simpa [found1] using found'
      rw [← isNamed_eq_of_nature ages.nature] at named
      cases h : value1.kind <;> simp_all [isUnnamed, isNamed, named?]
    · exact ⟨(spill_room found (by simpa using unnamed) occupied run).mono .inr,
        occupant?_of_spill run⟩

end

theorem obtainRegister_obtains {bank : Bank} (run : Runs (obtainRegister bank) c r c') :
    Obtains hw p bank c r c' := by
  refine obtainRegister_induction (P := Obtains hw p) ?free ?drop ?evict run
  case free =>
    intro bank c r chosen
    obtain ⟨bank_eq, range, empty, unlocked⟩ := mem_free.mp (choose_cases chosen)
    exact ⟨.refl c, empty, unlocked, bank_eq, range⟩
  case drop =>
    intro bank c r v c' chosen unbound
    obtain ⟨w, value, member, found, spare⟩ := choose_cases chosen
    obtain ⟨bank_eq, occupied, unlocked⟩ := mem_candidates.mp member
    obtain rfl : w = v := by simpa [occupied] using occupied_of_unbindRegister unbound
    refine ⟨(unbindRegister_room unbound fun {value'} found' unnamed => ?_).mono ?_,
      occupant?_of_unbindRegister unbound, unlocked, bank_eq, inRange_of_occupant? occupied⟩
    · obtain rfl : value = value' := by simpa [found] using found'
      cases h : value.kind <;>
        simp_all [isDead, isClean, isUnnamed, isNamed, named?]
    · rintro q rfl
      exact unlocked
  case evict =>
    intro bank c r c' scratch chosen inner vacated
    obtain ⟨v, member⟩ := choose_cases chosen
    obtain ⟨bank_eq, occupied, unlocked⟩ := mem_candidates.mp member
    obtain ⟨room, empty⟩ := vacateVia_room inner vacated
    refine ⟨room.mono ?_, empty, unlocked, bank_eq, inRange_of_occupant? occupied⟩
    rintro q (unlocked_q | rfl)
    · exact unlocked_q
    · exact unlocked

theorem vacate_room (run : Runs (vacate r) c u c') :
    MakesRoom hw p (fun q => c.Unlocked q ∨ q = r) id c c'
      ∧ c'.registers.occupant? r = none :=
  vacateVia_room obtainRegister_obtains run

theorem flush_room (run : Runs (flush v) c u c') : MakesRoom hw p c.Unlocked id c c' := by
  obtain ⟨value, found, run⟩ := runs_valueOf_bind.mp run
  obtain ⟨_, run⟩ | ⟨_, run⟩ := runs_ite.mp run
  · cases at_r : value.register? with
    | none => simp [at_r] at run
    | some r =>
      simp only [at_r] at run
      obtain ⟨c1, written, rfl⟩ := runs_holding.mp run
      have pos : value.position = some (.register r) := position_of_register? at_r
      refine .mono (.sparing (r := r) (.holding (.mono (writeBackVia_room obtainRegister_obtains
        (fun tracks => ?_) written) And.left))) And.left
      exact tracks.owned (standing_books (c := c.withLock r true) found) pos
  · obtain ⟨_, rfl⟩ := runs_pure.mp run
    exact .refl _

theorem flushAll_room (run : Runs flushAll c u c') : MakesRoom hw p c.Unlocked id c c' := by
  simp only [flushAll, runs_bind, runs_get, runs_pure, and_assoc, exists_and_left, exists_eq_left]
    at run
  obtain ⟨_, _, loop, _, rfl⟩ := run
  refine forIn_invariant (fun _ c1 => MakesRoom hw p _ id c c1) ?_ (.refl c) loop
  intro occupied rest c1 step c2 room round
  simp only [runs_bind, runs_pure] at round
  obtain ⟨_, _, flushed, rfl, rfl⟩ := round
  refine ⟨rfl, room.trans ((flush_room flushed).mono fun unlocked => ?_)⟩
  rwa [Context.Unlocked, room.isLocked] at unlocked

theorem releaseEscaped_room (run : Runs releaseEscaped c u c') :
    MakesRoom hw p (fun _ => True) id c c' ∧ ∀ {r v value}, c'.registers.occupant? r = some v →
      c'.values.get? v = some value → value.isEscaped = false := by
  simp only [releaseEscaped, runs_bind, runs_get, runs_pure, and_assoc, exists_and_left,
    exists_eq_left] at run
  obtain ⟨_, _, loop, _, rfl⟩ := run
  -- Escaped occupants are those that the loop has still to visit.
  have swept := forIn_invariant (fun rest c1 => MakesRoom hw p (fun _ => True) id c c1
    ∧ (∀ {r v}, (r, v) ∈ rest → c.registers.occupant? r = some v)
    ∧ ∀ {r v value}, c1.registers.occupant? r = some v → c1.values.get? v = some value →
        value.isEscaped = true → (r, v) ∈ rest) ?round
      ⟨.refl c, mem_allOccupied.mp, fun occupied _ _ =>
        mem_allOccupied.mpr occupied⟩ loop
  case round =>
    rintro ⟨r, v⟩ rest c1 step c2 ⟨room, listed, left⟩ round
    obtain ⟨value, found, round⟩ := runs_valueOf_bind.mp round
    obtain ⟨escaped, round⟩ | ⟨unescaped, round⟩ := runs_ite.mp round
    · simp only [runs_bind, runs_discard, runs_pure] at round
      obtain ⟨_, c3, flushed, _, _, ⟨w, unbound⟩, rfl, rfl⟩ := round
      have flush : MakesRoom hw p _ id c1 c3 := flush_room flushed
      obtain rfl : v = w := by
        have held := room.shrinks (flush.shrinks (occupied_of_unbindRegister unbound))
        simpa [listed (mem_cons_self ..)] using held
      obtain ⟨value3, found3, ages⟩ := flush.leads.values found
      have unbind : MakesRoom hw p _ id c3 _ :=
        unbindRegister_room unbound fun {value'} found' unnamed => by
        obtain rfl : value3 = value' := by simpa [found3] using found'
        have still := ages.escaped escaped
        cases h : value3.kind <;> simp_all [isEscaped, isUnnamed, named?]
      have both := (flush.mono fun _ => trivial).trans (unbind.mono fun _ => trivial)
      refine ⟨rfl, room.trans both, fun member => listed (mem_cons_of_mem _ member), ?_⟩
      intro q x value' occupied found' escaped'
      obtain ⟨value1, found1, _⟩ := both.leads.before found'
      have before := left (both.shrinks occupied) found1
        ((both.remains found1 found').2 ▸ escaped')
      refine (mem_cons.mp before).resolve_left ?_
      rintro ⟨⟩
      rw [occupant?_of_unbindRegister unbound] at occupied
      cases occupied
    · obtain ⟨rfl, rfl⟩ := runs_pure.mp round
      refine ⟨rfl, room, fun member => listed (mem_cons_of_mem _ member), ?_⟩
      intro q x value' occupied found' escaped'
      refine (mem_cons.mp (left occupied found' escaped')).resolve_left ?_
      rintro ⟨⟩
      obtain rfl : value = value' := by simpa [found] using found'
      exact unescaped escaped'
  · refine ⟨swept.1, fun occupied found => ?_⟩
    by_contra escaped
    rw [Bool.not_eq_false] at escaped
    cases swept.2.2 occupied found escaped

theorem releaseEscaped_of_empty (empty : ∀ r, c.registers.occupant? r = none)
    (run : Runs releaseEscaped c u c') : c' = c := by
  have nobody : c.registers.allOccupied = [] := by
    refine eq_nil_iff_forall_not_mem.mpr fun pair member => ?_
    rw [mem_allOccupied, empty] at member
    cases member
  simp only [releaseEscaped, runs_bind, runs_get, runs_pure, nobody, runs_forIn_nil, and_assoc,
    exists_and_left, exists_eq_left] at run
  obtain ⟨_, _, rfl, _, rfl⟩ := run
  rfl

theorem vacateAll_room (run : Runs vacateAll c u c') :
    MakesRoom hw p (fun _ => True) id c c' ∧ ∀ r, c'.registers.occupant? r = none := by
  simp only [vacateAll, runs_bind, runs_get, runs_pure, and_assoc, exists_and_left,
    exists_eq_left] at run
  obtain ⟨_, _, loop, _, rfl⟩ := run
  have swept := forIn_invariant (fun rest c1 => MakesRoom hw p (fun _ => True) id c c1
    ∧ ∀ {r v}, c1.registers.occupant? r = some v → (r, v) ∈ rest) ?round
      ⟨.refl c, mem_allOccupied.mpr⟩ loop
  case round =>
    rintro ⟨r, v⟩ rest c1 step c2 ⟨room, left⟩ round
    obtain ⟨_, round⟩ := runs_occupantOf_bind.mp round
    obtain ⟨_, round⟩ | ⟨other, round⟩ := runs_ite.mp round
    · simp only [runs_bind, runs_pure] at round
      obtain ⟨_, _, vacated, rfl, rfl⟩ := round
      obtain ⟨vacate, empty⟩ : MakesRoom hw p _ id c1 _ ∧ _ := vacate_room vacated
      refine ⟨rfl, room.trans (vacate.mono fun _ => trivial), fun occupied => ?_⟩
      refine (mem_cons.mp (left (vacate.shrinks occupied))).resolve_left ?_
      rintro ⟨⟩
      rw [empty] at occupied
      cases occupied
    · obtain ⟨rfl, rfl⟩ := runs_pure.mp round
      refine ⟨rfl, room, fun occupied => (mem_cons.mp (left occupied)).resolve_left ?_⟩
      rintro ⟨⟩
      exact other occupied
  · refine ⟨swept.1, fun r => ?_⟩
    cases occupied : c'.registers.occupant? r with
    | none => rfl
    | some v => cases swept.2 occupied

theorem occupant?_of_dropAll {strict : Bool} (run : Runs (dropAll strict) c u c') (r : Register) :
    c'.registers.occupant? r = none := by
  simp only [dropAll, runs_bind, runs_get, runs_pure, and_assoc, exists_and_left,
    exists_eq_left] at run
  obtain ⟨_, _, loop, _, rfl⟩ := run
  have swept := forIn_invariant (fun rest (c1 : Context) =>
    ∀ r v, c1.registers.occupant? r = some v → (r, v) ∈ rest) ?round
      (fun _ _ => mem_allOccupied.mpr) loop
  case round =>
    rintro ⟨r, v⟩ rest c1 step c2 left round
    rw [runs_valueOf_bind] at round
    obtain ⟨value, found, round⟩ := round
    rw [runs_ite_then] at round
    obtain ⟨_, c3, allowed, round⟩ := round
    obtain rfl : c3 = c1 := by
      obtain ⟨_, stopped⟩ | ⟨_, passed⟩ := runs_ite.mp allowed
      · cases runs_inconsistent.mp stopped
      · exact (runs_pure.mp passed).2
    simp only [runs_bind, runs_discard, runs_pure] at round
    obtain ⟨_, _, ⟨w, unbound⟩, rfl, rfl⟩ := round
    obtain ⟨_, _, _, range, _, _, _, _, rfl⟩ := runs_unbindRegister unbound
    refine ⟨rfl, fun q x occupied => ?_⟩
    refine (mem_cons.mp (left q x (occupant?_emptied range occupied))).resolve_left ?_
    rintro ⟨⟩
    rw [occupant?_setOccupant _ _ _ range, if_pos rfl] at occupied
    cases occupied
  cases occupied : c'.registers.occupant? r with
  | none => rfl
  | some v => cases swept r v occupied

theorem moveOccupant_carries {source target : Register} (other : target ≠ source)
    (free : target ∈ c.registers.free source.bank)
    (run : Runs (moveOccupant source target) c u c') :
    Carries hw p id c c' ∧ c'.registers.occupant? source = none := by
  obtain ⟨v, value, occupied, found, range, range', _, remarks, only, rfl⟩ := runs_moveOccupant run
  obtain ⟨bank, _, empty, unlocked⟩ := mem_free.mp free
  refine ⟨fun {content s} tracks separate => ?_, ?_⟩
  · have standing := standing_books found
    have pos := (tracks.occupant_iff standing).mp occupied
    obtain ⟨bank_eq, sized, word, backed⟩ := tracks.seated standing pos
    have moved := tracks.seat standing (r := target) (w := s.registers source)
      (fun w taken => by simp [Context.books, empty] at taken) (bank_eq.trans bank.symm) sized
      (tracks.canonical standing (by simp [pos]) word) value.standing.dirty backed
      fun clean home cell homed is_cell =>
        (tracks.current standing (.inr ⟨homed, clean, _, pos⟩) is_cell).trans word
    rw [← word, Function.update_eq_self, tracks.without_of_seated standing pos] at moved
    refine ⟨s.set target (s.registers source), ?_, ?_, ?_, fun {r} is_locked => ?_⟩
    · exact (Executes.pushed (i := .mov target source) rfl).trans
        (.remarks (c := c.pushed (.mov target source)) (fun i member => (only i member).remark) rfl)
    · rw [← c.books_setOccupant range] at moved
      rw [books_seated (c.registers.setOccupant source none) range' found]
      exact moved
    · intro w old new found_w found'
      have same := map_get?_touch (c.values.modify v
        ({ · with position := some (.register target) })) v w Value.position fun _ _ => rfl
      rw [found', get?_modify] at same
      by_cases here : w = v
      · subst here
        simp only [found, ↓reduceIte, Option.map_some, Option.some.injEq] at same
        obtain rfl := Option.mem_unique found found_w
        exact .of_register pos fun _ => by simp [same]
      · simp only [here, ↓reduceIte, found_w, Option.map_some, Option.some.injEq] at same
        exact .of_position same
    · have elsewhere : r ≠ target := by
        rintro rfl
        simp [unlocked] at is_locked
      rw [registers_set, if_neg elsewhere]
  · rw [occupant?_setOccupant _ _ _ range', if_neg (Ne.symm other),
      occupant?_setOccupant _ _ _ range, if_pos rfl]

theorem displace_carries (run : Runs (displace r) c u c') :
    Carries hw p id c c' ∧ c'.registers.occupant? r = none := by
  obtain ⟨_, run⟩ := runs_occupantOf_bind.mp run
  obtain ⟨_, run⟩ | ⟨empty, run⟩ := runs_ite.mp run
  · rw [runs_get_bind] at run
    split at run
    · next other found =>
      have member := mem_of_find?_eq_some found
      have different := find?_some found
      exact moveOccupant_carries (by simpa using different) member run
    · obtain ⟨room, empty⟩ : MakesRoom hw p _ id c c' ∧ _ := vacate_room run
      exact ⟨room.carries, empty⟩
  · obtain ⟨_, rfl⟩ := runs_pure.mp run
    have room : MakesRoom hw p (fun _ => False) id c' c' := .refl c'
    exact ⟨room.carries, by simpa using empty⟩

end

end RegisterBackend
