import RegisterBackend.Proofs.Eviction

/-!
Where registers are saved. To obtain a register others may have to be emptied, and what was in them
is written to homes and to new slots. No other memory changes.
-/
namespace RegisterBackend

open Gen Context

variable {hw : Hardware} {p : Placement} {content : ValueId → Content} {c c1 c' : Context}
  {s s1 s' : MachineState} {bank : Bank} {r src : Register} {u : Unit} {v : ValueId} {a : Word}
  {target : Position} {gone : Register → Prop}

theorem Executes.unique (first : Executes hw p c s c' s1) (second : Executes hw p c s c' s') :
    s1 = s' := by
  obtain ⟨run, code, ok⟩ := first
  obtain ⟨run', code', ok'⟩ := second
  obtain rfl : run' = run := List.append_cancel_left (code'.symm.trans code)
  exact Option.some.inj (ok.symm.trans ok')

theorem Executes.eq_of_code (ran : Executes hw p c s c' s') (same : c'.code = c.code) : s' = s :=
  ran.unique (.of_code same)

def Books.Anchors (b b' : Books) : Prop :=
  ∀ ⦃v st place⦄, b.standing v = some st → st.position = some place → place.isRegister = false →
    ∃ st', b'.standing v = some st' ∧ st'.position = some place

theorem Books.Anchors.refl (b : Books) : b.Anchors b :=
  fun _ st _ standing at_place _ => ⟨st, standing, at_place⟩

theorem Books.Anchors.trans {b b1 b' : Books} (first : b.Anchors b1) (second : b1.Anchors b') :
    b.Anchors b' := by
  intro v st place standing at_place memory
  obtain ⟨st1, standing1, at_place1⟩ := first standing at_place memory
  exact second standing1 at_place1 memory

theorem Context.Secures.anchors (secures : c.Secures c') (leads : Leads c c') :
    c.books.Anchors c'.books := by
  intro v st place standing at_place memory
  obtain ⟨value, found, rfl⟩ := Option.map_eq_some_iff.mp standing
  obtain ⟨value', found', _⟩ := leads.values found
  exact ⟨_, standing_books found', (secures found found').anchored at_place memory⟩

/-- The byte is part of the memory where a value is that was in a register before. -/
def Saved (p : Placement) (c c' : Context) (a : Word) : Prop :=
  ∃ r v value place i, c.registers.occupant? r = some v ∧ c'.values.get? v = some value
    ∧ value.position = some place ∧ place.isRegister = false ∧ i < value.ty.size
      ∧ a = p.locate place + BitVec.ofNat 64 i

namespace Saved

theorem before (saved : Saved p c1 c' a) (shrinks : c.Sheds c1) : Saved p c c' a := by
  obtain ⟨r, v, value, place, i, occupied, rest⟩ := saved
  exact ⟨r, v, value, place, i, shrinks occupied, rest⟩

theorem modify {f : Value → Value} {value : Value} (saved : Saved p c c1 a)
    (found : c1.values.get? v = some value) (values : c'.values = c1.values.modify v f)
    (elsewhere : ∀ {r place}, c.registers.occupant? r = some v →
      value.position = some place → place.isRegister = true) : Saved p c c' a := by
  obtain ⟨q, w, other, place, i, occupied, found', at_place, memory, rest⟩ := saved
  refine ⟨q, w, other, place, i, occupied, ?_, at_place, memory, rest⟩
  rw [values, ValueStore.get?_modify, if_neg, found']
  rintro rfl
  obtain rfl := Option.mem_unique found found'
  cases (elsewhere occupied at_place).symm.trans memory

end Saved

/-- Values only leave registers, and of memory only that changes where they are saved. -/
structure Saving (p : Placement) (c : Context) (m : Memory) (c' : Context)
    (m' : Memory) : Prop where
  leads : Leads c c'
  shrinks : c.Sheds c'
  anchors : c.books.Anchors c'.books
  memory : ∀ {a}, m' a ≠ m a → Saved p c c' a

namespace Saving
variable {m m1 m' : Memory}

theorem trans (first : Saving p c m c1 m1) (second : Saving p c1 m1 c' m') :
    Saving p c m c' m' where
  leads := first.leads.trans second.leads
  shrinks occupied := first.shrinks (second.shrinks occupied)
  anchors := first.anchors.trans second.anchors
  memory {a} changed := by
    by_cases same : m1 a = m a
    · exact (second.memory (same ▸ changed)).before first.shrinks
    · obtain ⟨r, v, value, place, i, occupied, found, at_place, memory, small, is_byte⟩ :=
        first.memory same
      obtain ⟨value', found', ages⟩ := second.leads.values found
      obtain ⟨_, standing, at_place'⟩ := second.anchors (standing_books found) at_place memory
      obtain rfl := Option.mem_unique (standing_books found') standing
      exact ⟨r, v, value', place, i, occupied, found', at_place', memory, ages.ty ▸ small, is_byte⟩

theorem of_books (leads : Leads c c') (books : c'.books = c.books) : Saving p c m c' m where
  leads := leads
  shrinks {r _} occupied := (congrFun (congrArg Books.occupant books) r).symm.trans occupied
  anchors := books ▸ .refl _
  memory changed := (changed rfl).elim

theorem refl (c : Context) : Saving p c m c m := .of_books (.refl c) rfl

theorem holding (inner : Saving p (c.withLock r true) m c1 m') (locked : Bool) :
    Saving p c m (c1.withLock r locked) m' :=
  .trans (.of_books (.withLock ..) (by simp)) (inner.trans (.of_books (.withLock ..) (by simp)))

/-- Where the books stay the same, nothing was saved. -/
theorem memory_eq (saving : Saving p c m c' m') (books : c'.books = c.books)
    (tracks : Tracks hw p content c.books s) : m' = m := by
  funext a
  by_contra changed
  obtain ⟨_, _, _, _, _, occupied, found, at_place, memory, _⟩ := saving.memory changed
  obtain ⟨st, standing, at_r, _⟩ := tracks.held occupied
  rw [← books, standing_books found] at standing
  cases standing
  cases at_place.symm.trans at_r
  cases memory

end Saving

/-- The code written from `c` to `c'` changes memory only where it saves what was in registers. -/
def Confines (hw : Hardware) (p : Placement) (c c' : Context) : Prop :=
  ∀ ⦃content s s' a⦄, Tracks hw p content c.books s → p.Separates c'.extent →
    Executes hw p c s c' s' →
    s'.memory a ≠ s.memory a → Saved p c c' a

theorem Confines.saving (confines : Confines hw p c c') (room : MakesRoom hw p gone id c c')
    (tracks : Tracks hw p content c.books s) (separate : p.Separates c'.extent)
    (ran : Executes hw p c s c' s') : Saving p c s.memory c' s'.memory where
  leads := room.leads
  shrinks := room.shrinks
  anchors := by
    obtain ⟨_, _, _, secures, _⟩ := room.carries tracks separate
    exact secures.anchors room.leads
  memory := confines tracks separate ran

theorem unbindRegister_confines (run : Runs (unbindRegister r) c v c') : Confines hw p c c' := by
  intro content s s' a _ _ ran changed
  obtain ⟨_, _, _, _, _, _, remarks, only, rfl⟩ := runs_unbindRegister run
  obtain rfl := ran.unique (.remarks (fun i member => (only i member).remark) rfl)
  exact (changed rfl).elim

theorem Tracks.isRegister_home {value : Value} {home : Position}
    (tracks : Tracks hw p content c.books s) (found : c.values.get? v = some value)
    (is_home : value.home? = some home) : home.isRegister = false := by
  obtain ⟨_, is_cell, _⟩ := tracks.located (standing_books found) (.inr is_home)
  cases home with
  | register r => cases is_cell
  | _ => rfl

theorem in_register {value : Value} {place : Position} (at_r : value.position = some (.register r))
    (at_place : value.position = some place) : place.isRegister = true := by
  cases at_r.symm.trans at_place
  rfl

theorem Memory.inside_of_write {m : Memory} {start : Word} {bytes : List UInt8}
    (changed : m.write start bytes a ≠ m a) :
    ∃ i < bytes.length, a = start + BitVec.ofNat 64 i := by
  by_contra outside
  refine changed (m.write_of_apart fun i small same => outside ⟨i, small, same⟩)


section
variable {scratch : Gen Register}
  (obtains : ∀ {c q c'}, Runs scratch c q c' → Obtains hw p .int c q c')
  (confines : ∀ {c q c'}, Runs scratch c q c' → Confines hw p c c')
include obtains confines

/-- A store changes its target; to reach it, other registers may have to be saved. -/
theorem storeVia_changes {ty : Ty} (memory : target.isRegister = false) (sized : ty.RegisterSized)
    (run : Runs (storeVia scratch src target ty) c u c') (tracks : Tracks hw p content c.books s)
    (separate : p.Separates c'.extent) (ran : Executes hw p c s c' s')
    (changed : s'.memory a ≠ s.memory a) :
    Saved p c c' a ∨ ∃ i < ty.size, a = p.locate target + BitVec.ofNat 64 i := by
  have size := sized.toUInt8_toNat
  have length (w : Word) : (hw.deposit src.bank w ty.size).length = ty.size :=
    Hardware.length_deposit sized.le
  have through (run : Runs (holding src do
      let ptr ← scratch
      loadAddress ptr target
      emit (.storePtr ptr src ty.size.toUInt8)) c u c') :
      Saved p c c' a ∨ ∃ i < ty.size, a = p.locate target + BitVec.ofNat 64 i := by
    obtain ⟨_, block, rfl⟩ := runs_holding.mp run
    simp only [runs_bind, runs_emit] at block
    obtain ⟨ptr, c1, taken, _, _, addressed, rfl⟩ := block
    obtain ⟨_, instrs, rfl, _, ok⟩ := runs_loadAddress addressed
    have tracks0 : Tracks hw p content (c.withLock src true).books s := by simpa using tracks
    obtain ⟨s1, ran1, _⟩ := (obtains taken).room.carries tracks0 separate
    have stored : Executes hw p (c1.appended instrs) (s1.set ptr (p.locate target))
        ((c1.appended instrs).pushed (.storePtr ptr src ty.size.toUInt8)) _ := .pushed rfl
    obtain rfl := (ran1.trans ((Executes.appended (ok hw p s1)).trans stored)).unique ran
    by_cases same : s1.memory a = s.memory a
    · rw [← same] at changed
      obtain ⟨i, small, rfl⟩ := Memory.inside_of_write changed
      rw [size, length] at small
      exact .inr ⟨i, small, by simp⟩
    · exact .inl ((confines taken tracks0 separate ran1 same).before
        (by simp [Context.Sheds, Context.withLock]))
  unfold storeVia at run
  cases target with
  | register dst => cases memory
  | stack slot =>
    obtain rfl := runs_emit.mp run
    obtain rfl := (Executes.pushed rfl).unique ran
    obtain ⟨i, small, rfl⟩ := Memory.inside_of_write changed
    rw [size, length] at small
    exact .inr ⟨i, small, rfl⟩
  | static offset | constant id => exact through run

theorem writeBackVia_changes (occupied : c.registers.occupant? r = some v)
    (run : Runs (writeBackVia scratch v r) c u c') (tracks : Tracks hw p content c.books s)
    (separate : p.Separates c'.extent) (ran : Executes hw p c s c' s')
    (changed : s'.memory a ≠ s.memory a) :
    Saved p c c' a ∨ ∃ value home i, c'.values.get? v = some value ∧ value.home? = some home
      ∧ i < value.ty.size ∧ a = p.locate home + BitVec.ofNat 64 i := by
  simp only [writeBackVia, runs_bind, runs_valueOf, runs_updateValue, runs_record, and_assoc,
    exists_and_left, exists_eq_left] at run
  obtain ⟨home, c1, homed, value, found, _, c2, stored, ⟨value2, found2⟩, _, rfl⟩ := run
  have fixed : MakesRoom hw p (fun _ => False) id c c1 := homeOf_room homed
  have store : MakesRoom hw p _ _ c1 c2 := storeVia_room obtains stored
  have occupied1 : c1.registers.occupant? r = some v := (fixed.occupant id).trans occupied
  have code : c1.code = c.code := by
    obtain ⟨_, _, _, _, ⟨_, rfl⟩ | ⟨_, _, _, _, hands, rfl⟩⟩ := runs_homeOf homed
    · rfl
    · exact hands.code
  obtain ⟨s0, ran0, tracks1, _⟩ := fixed.carries tracks (separate.mono store.leads.extent)
  obtain rfl : s0 = s := ran0.eq_of_code code
  obtain ⟨s2, ran2, tracks2, _⟩ := store.carries tracks1 separate
  obtain rfl := (ran0.trans ran2).unique ran
  have standing := standing_books found
  obtain ⟨_, found', is_home⟩ := home?_of_homeOf homed
  obtain rfl := Option.mem_unique found found'
  have memory := tracks1.isRegister_home found is_home
  have sized : value.ty.RegisterSized :=
    (tracks1.seated standing ((tracks1.occupant_iff standing).mp occupied1)).2.1
  obtain ⟨_, same, ages⟩ := store.leads.values found
  obtain rfl := Option.mem_unique found2 same
  rcases storeVia_changes obtains confines memory sized stored tracks1 separate ran2 changed with
    saved | ⟨i, small, rfl⟩
  · have seated :=
      (tracks2.occupant_iff (standing_books found2)).mp ((store.occupant (by simp)).trans occupied1)
    exact .inl ((saved.modify found2 rfl (fun _ => in_register seated)).before fixed.shrinks)
  · refine .inr ⟨value2.setDirty false, home, i, ?_, ?_, ?_, rfl⟩
    · rw [ValueStore.get?_modify, if_pos rfl, found2, Option.map_some]
    · exact (ages.trans (Value.ages_setDirty _ _)).home is_home
    · rwa [(ages.trans (Value.ages_setDirty _ _)).ty]

theorem vacateVia_confines (run : Runs (vacateVia scratch r) c u c') : Confines hw p c c' := by
  obtain ⟨range, run⟩ := runs_occupantOf_bind.mp run
  cases occupied : c.registers.occupant? r with
  | none => simp [occupied] at run
  | some v =>
    simp only [occupied] at run
    obtain ⟨value, found, run⟩ := runs_valueOf_bind.mp run
    obtain ⟨_, run⟩ | ⟨_, run⟩ := runs_ite.mp run
    · obtain ⟨w, unbound⟩ := runs_discard.mp run
      exact unbindRegister_confines unbound
    intro content s s' a tracks separate ran changed
    obtain ⟨_, run⟩ | ⟨_, run⟩ := runs_ite.mp run
    · simp only [runs_bind, runs_discard] at run
      obtain ⟨_, c1, written, w, unbound⟩ := run
      have room := writeBackVia_room obtains (fun _ => occupied) written
      obtain ⟨value1, found1, occupied1, _, at_r, _, remarks, only, rfl⟩ :=
        runs_unbindRegister unbound
      obtain rfl : v = w := Option.mem_unique occupied (room.shrinks occupied1)
      obtain ⟨s1, ran1, tracks1, _⟩ := room.carries tracks separate
      have left : Executes hw p c1 s1 { c1 with
          registers := c1.registers.setOccupant r none
          values := c1.values.modify v ({ · with position := value1.home? })
          code := c1.code ++ remarks } s1 := .remarks (fun i member => (only i member).remark) rfl
      obtain rfl := (ran1.trans left).unique ran
      rcases writeBackVia_changes obtains confines occupied written tracks
        separate ran1 changed with
        saved | ⟨_, home, i, found', is_home, small, rfl⟩
      · exact saved.modify found1 rfl (fun _ => in_register at_r)
      · obtain rfl := Option.mem_unique found1 found'
        refine ⟨r, v, { value1 with position := value1.home? }, home, i, occupied, ?_, is_home,
          tracks1.isRegister_home found1 is_home, small, rfl⟩
        rw [ValueStore.get?_modify, if_pos rfl, found1, Option.map_some]
    · have sized : value.ty.RegisterSized := by
        have standing := standing_books found
        exact (tracks.seated standing ((tracks.occupant_iff standing).mp occupied)).2.1
      obtain ⟨_, slot, c1, _, same, hands, range, _, rfl⟩ := runs_spill run
      obtain rfl := Option.mem_unique found same
      obtain rfl := ((Executes.of_code hands.code).trans (Executes.pushed (c := c1) rfl)).unique ran
      obtain ⟨i, small, rfl⟩ := Memory.inside_of_write changed
      rw [sized.toUInt8_toNat, Hardware.length_deposit sized.le] at small
      refine ⟨r, v, { value with position := some (.stack slot) }, .stack slot, i, occupied, ?_,
        rfl, rfl, small, rfl⟩
      rw [ValueStore.get?_modify, if_pos rfl, hands.values, found, Option.map_some]

end

theorem obtainRegister_confines (run : Runs (obtainRegister bank) c r c') : Confines hw p c c' := by
  induction fuel : c.registers.unlockedCount using Nat.strongRecOn generalizing bank c r c' with
  | ind n ih =>
    subst fuel
    obtain ⟨_, rfl⟩ | ⟨_, v, unbound⟩ | ⟨_, scratch, inner, vacated⟩ := runs_obtainRegister run
    · intro content s s' a _ _ ran changed
      obtain rfl := ran.eq_of_code rfl
      exact (changed rfl).elim
    · exact unbindRegister_confines unbound
    · exact vacateVia_confines (fun taken => obtainRegister_obtains (inner taken).2)
        (fun taken => ih _ (inner taken).1 (inner taken).2 rfl) vacated

end RegisterBackend
