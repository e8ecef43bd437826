import RegisterBackend.Proofs.Eviction

/-!
Which frame the code names. A machine finds a slot by its distance from the stack pointer, so code
that runs in the frame of one function must not name a slot of another.
-/
namespace RegisterBackend

open Context Instr

variable {c c' c1 : Context} {frame : FrameId} {r dst src : Register}
  {home place target : Position} {i : Instr} {instrs run : List Instr} {locked : Bool}

theorem Instr.keepsTo_of_isRemark (remark : i.isRemark = true) : i.KeepsTo frame := by
  cases i with
  | comment _ => trivial
  | location _ _ _ => trivial
  | _ => cases remark

/-- `q` places everything as `p` does, except perhaps the other frames. -/
structure Placement.Agrees (frame : FrameId) (p q : Placement) : Prop where
  frame : q.frame frame = p.frame frame
  outgoing : q.outgoing = p.outgoing
  statics : q.statics = p.statics
  code : q.code = p.code
  constant : q.constant = p.constant
  label : q.label = p.label

namespace Placement.Agrees
variable {p q : Placement}

section
variable (agrees : p.Agrees frame q)
include agrees

theorem slot_eq {slot : StackSlot} (keeps : slot.KeepsTo frame) : q.slot slot = p.slot slot := by
  obtain ⟨base, offset⟩ := slot
  obtain rfl | rfl := keeps
  · simp [Placement.slot, agrees.frame]
  · simp [Placement.slot, agrees.outgoing]

theorem imm_eq (imm : Imm) : q.imm imm = p.imm imm := by
  cases imm with
  | value bits => rfl
  | constantAddress id => exact congrFun agrees.constant id
  | labelAddress label => exact congrFun agrees.label label

theorem execute_eq (keeps : i.KeepsTo frame) (hw : Hardware) (s : MachineState) :
    i.execute hw q s = i.execute hw p s := by
  cases i with
  | movImm dst imm | aluImm op dst imm => simp [execute, agrees.imm_eq]
  | loadStack dst slot size | storeStack src slot size | leaStack dst slot =>
    simp [execute, agrees.slot_eq keeps]
  | copyStack dst src size => simp [execute, agrees.slot_eq keeps.1, agrees.slot_eq keeps.2]
  | runtimeParam dst param => cases param <;> simp [execute, agrees.code, agrees.statics]
  | _ => rfl

theorem executeAll_eq (hw : Hardware) (keeps : ∀ i ∈ run, i.KeepsTo frame) (s : MachineState) :
    executeAll hw q run s = executeAll hw p run s := by
  induction run generalizing s with
  | nil => rfl
  | cons i rest ih =>
    rw [List.forall_mem_cons] at keeps
    rw [executeAll_cons, executeAll_cons, agrees.execute_eq keeps.1]
    exact congrArg _ (funext fun t => ih keeps.2 t)

end

end Placement.Agrees

/-- What memory the value has on the stack is in the frame. -/
def Books.Lodges (b : Books) (frame : FrameId) (v : ValueId) : Prop :=
  ∀ ⦃st place⦄, b.standing v = some st → st.Owns place → place.KeepsTo frame

theorem Books.Lodges.put {b : Books} {v w : ValueId} {st : Standing} (lodges : b.Lodges frame w)
    (mine : w = v → ∀ place, st.Owns place → place.KeepsTo frame) :
    (b.put v st).Lodges frame w := by
  intro st' place standing owns
  by_cases same : w = v
  · subst same
    simp only [Books.put, Function.update_self, Option.some.injEq] at standing
    exact mine rfl place (standing ▸ owns)
  · simp only [Books.put, Function.update_of_ne same] at standing
    exact lodges standing owns

/-- The code written from `c` to `c'` keeps to the frame, as do the values that did before. -/
structure Stays (frame : FrameId) (c c' : Context) : Prop where
  lodges : ∀ {v}, c.books.Lodges frame v → c'.books.Lodges frame v
  code : ∃ run, c'.code.toList = c.code.toList ++ run ∧ ∀ i ∈ run, i.KeepsTo frame

namespace Stays

theorem trans (first : Stays frame c c1) (second : Stays frame c1 c') : Stays frame c c' where
  lodges lodged := second.lodges (first.lodges lodged)
  code := by
    obtain ⟨run, code, keeps⟩ := first.code
    obtain ⟨run', code', keeps'⟩ := second.code
    refine ⟨run ++ run', by rw [code', code, List.append_assoc], fun i member => ?_⟩
    exact (List.mem_append.mp member).elim (keeps i) (keeps' i)

theorem of_standing (standing : c'.books.standing = c.books.standing) (code : c'.code = c.code) :
    Stays frame c c' where
  lodges lodged _ _ known := lodged (standing ▸ known)
  code := ⟨[], by simp [code], by simp⟩

theorem refl (c : Context) : Stays frame c c := of_standing rfl rfl

theorem pushed (keeps : i.KeepsTo frame) : Stays frame c (c.pushed i) where
  lodges lodged := lodged
  code := ⟨[i], by simp [Context.pushed], by simpa using keeps⟩

theorem withLock (c : Context) (r : Register) (locked : Bool) :
    Stays frame c (c.withLock r locked) :=
  of_standing (by simp) rfl

theorem holding (inner : Stays frame (c.withLock r true) c1) :
    Stays frame c (c1.withLock r locked) :=
  (withLock c r true).trans (inner.trans (withLock c1 r locked))

theorem executes {hw : Hardware} {p q : Placement} {s s' : MachineState} (stays : Stays frame c c')
    (ran : Executes hw p c s c' s') (agrees : p.Agrees frame q) : Executes hw q c s c' s' := by
  obtain ⟨run, code, ok⟩ := ran
  obtain ⟨run', code', keeps⟩ := stays.code
  obtain rfl : run' = run := List.append_cancel_left (code'.symm.trans code)
  exact ⟨run', code, (agrees.executeAll_eq hw keeps s).trans ok⟩

end Stays

/-- The frame is the current one, and the values in registers have their memory there. -/
structure Context.Housed (c : Context) (frame : FrameId) : Prop where
  current : c.currentFrame = some frame
  occupants : ∀ {r v}, c.registers.occupant? r = some v → c.books.Lodges frame v

def Resides (frame : FrameId) (c c' : Context) : Prop :=
  c.Housed frame → c'.Housed frame ∧ Stays frame c c'

namespace Resides

theorem trans (first : Resides frame c c1) (second : Resides frame c1 c') : Resides frame c c' := by
  intro housed
  obtain ⟨housed1, stays⟩ := first housed
  obtain ⟨housed', stays'⟩ := second housed1
  exact ⟨housed', stays.trans stays'⟩

theorem of_stays (current : c'.currentFrame = c.currentFrame) (shrinks : c.Sheds c')
    (stays : c.Housed frame → Stays frame c c') : Resides frame c c' := fun housed =>
  ⟨⟨current.trans housed.current, fun occupied =>
    (stays housed).lodges (housed.occupants (shrinks occupied))⟩, stays housed⟩

theorem refl (c : Context) : Resides frame c c := of_stays rfl id fun _ => .refl c

theorem pushed (keeps : i.KeepsTo frame) : Resides frame c (c.pushed i) :=
  of_stays rfl id fun _ => .pushed keeps

theorem withLock (c : Context) (r : Register) (locked : Bool) :
    Resides frame c (c.withLock r locked) :=
  of_stays rfl (by simp [Context.Sheds, Context.withLock]) fun _ => .withLock c r locked

theorem holding (inner : Resides frame (c.withLock r true) c1) :
    Resides frame c (c1.withLock r locked) :=
  (withLock c r true).trans (inner.trans (withLock c1 r locked))

end Resides

section
open Gen
variable {v : ValueId} {u : Unit}

theorem Context.Hands.keepsTo {size : Nat} (hands : c.Hands size place c')
    (current : c.currentFrame = some frame) : place.KeepsTo frame := by
  cases hands with
  | slot known =>
    obtain rfl := Option.mem_unique known current
    exact .inl rfl
  | static _ => trivial
  | blob => trivial

theorem unbindRegister_resides (run : Runs (unbindRegister r) c v c') : Resides frame c c' := by
  obtain ⟨value, found, _, range, _, _, remarks, only, rfl⟩ := runs_unbindRegister run
  refine .of_stays rfl (RegisterFile.occupant?_emptied range) fun _ =>
    ⟨fun {w} lodged => ?_, remarks,
    by simp, fun i member => keepsTo_of_isRemark (only i member).remark⟩
  rw [books_relocated range none found]
  refine Books.Lodges.put (b := c.books.occupy r none) lodged ?_
  rintro rfl place (⟨at_home, _⟩ | home)
  · exact lodged (standing_books found) (.inr at_home)
  · exact lodged (standing_books found) (.inr home)

theorem spill_resides (run : Runs (spill v r) c u c') : Resides frame c c' := by
  obtain ⟨value, slot, c1, _, found, hands, range, _, rfl⟩ := runs_spill run
  have registers : c1.registers = c.registers := by cases hands; rfl
  have current : c1.currentFrame = c.currentFrame := by cases hands; rfl
  refine .of_stays current
    (fun occupied => registers ▸ RegisterFile.occupant?_emptied range occupied)
    fun housed => ?_
  have keeps : slot.KeepsTo frame := hands.keepsTo housed.current
  refine ⟨fun {w} lodged => ?_, [.storeStack r slot value.ty.size.toUInt8], by simp [hands.code],
    by simpa [Instr.KeepsTo] using keeps⟩
  rw [books_spilled range (hands.values ▸ found), hands.books]
  refine Books.Lodges.put (b := (c.books.withExtent c1.extent).occupy r none) lodged ?_
  rintro rfl place (⟨at_slot, _⟩ | home)
  · cases at_slot
    exact keeps
  · exact lodged (standing_books found) (.inr home)

theorem homeOf_resides (run : Runs (homeOf v) c home c') :
    Resides frame c c' ∧ (c.Housed frame → c.books.Lodges frame v → home.KeepsTo frame) := by
  obtain ⟨value, named, found, is_named, ⟨fixed, rfl⟩ | ⟨fresh, _, _, c1, hands, rfl⟩⟩ :=
    runs_homeOf run
  · refine ⟨.refl _, fun _ lodged => lodged (standing_books found) (.inr ?_)⟩
    simp [Value.standing, Value.home?, is_named, fixed]
  have registers : c1.registers = c.registers := by cases hands <;> rfl
  have current : c1.currentFrame = c.currentFrame := by cases hands <;> rfl
  refine ⟨.of_stays current (fun occupied => registers ▸ occupied) fun housed => ?_,
    fun housed _ => hands.keepsTo housed.current⟩
  refine ⟨fun {w} lodged => ?_, [], by simp [hands.code], by simp⟩
  have books := books_modify (f := (·.mapNamed fun _ => { named with home := some home }))
    (hands.values ▸ found : c1.values.get? v = some value)
  rw [books, Value.standing_mapNamed is_named, hands.books]
  refine Books.Lodges.put lodged ?_
  rintro rfl place (memory | at_home)
  · exact lodged (standing_books found) (.inl memory)
  · cases at_home
    exact hands.keepsTo housed.current

theorem Stays.appended (keeps : ∀ i ∈ instrs, i.KeepsTo frame) :
    Stays frame c (c.appended instrs) where
  lodges lodged := lodged
  code := ⟨instrs, by simp [Context.appended], keeps⟩

theorem loadAddress_resides (keeps : place.KeepsTo frame)
    (run : Runs (loadAddress dst place) c u c') : Resides frame c c' := by
  obtain ⟨_, instrs, rfl, names, _⟩ := runs_loadAddress run
  exact .of_stays rfl id fun _ => .appended fun i member => (names i member).2 frame keeps

section
variable {scratch : Gen Register} (resides : ∀ {c q c'}, Runs scratch c q c' → Resides frame c c')
include resides

theorem storeVia_resides {ty : Ty} (keeps : target.KeepsTo frame)
    (run : Runs (storeVia scratch src target ty) c u c') : Resides frame c c' := by
  have through {size : UInt8} (run : Runs (holding src do
      let ptr ← scratch
      loadAddress ptr target
      emit (.storePtr ptr src size)) c u c') : Resides frame c c' := by
    obtain ⟨_, block, rfl⟩ := runs_holding.mp run
    simp only [runs_bind, runs_emit] at block
    obtain ⟨ptr, c1, taken, _, _, addressed, rfl⟩ := block
    exact .holding
      ((resides taken).trans ((loadAddress_resides keeps addressed).trans (.pushed trivial)))
  unfold storeVia at run
  cases target with
  | register dst =>
    obtain ⟨_, run⟩ | ⟨_, run⟩ := runs_ite.mp run
    · obtain rfl := runs_emit.mp run
      exact .pushed trivial
    · obtain ⟨_, rfl⟩ := runs_pure.mp run
      exact .refl _
  | stack slot =>
    obtain rfl := runs_emit.mp run
    exact .pushed keeps
  | static offset => exact through run
  | constant id => exact through run

theorem writeBackVia_resides (lodged : c.books.Lodges frame v)
    (run : Runs (writeBackVia scratch v r) c u c') : Resides frame c c' := by
  simp only [writeBackVia, runs_bind, runs_valueOf, runs_updateValue, runs_record, and_assoc,
    exists_and_left, exists_eq_left] at run
  obtain ⟨home, c1, homed, value, _, _, c2, stored, ⟨value2, found2⟩, _, rfl⟩ := run
  intro housed
  obtain ⟨fixed, keeps⟩ := homeOf_resides homed
  refine (fixed.trans ((storeVia_resides resides (keeps housed lodged) stored).trans ?_)) housed
  refine .of_stays rfl id fun _ => ⟨fun {w} kept => ?_, [], by simp, by simp⟩
  have books : { c2 with
      values := c2.values.modify v (·.setDirty false)
      statistics := c2.statistics.addSpill }.books = _ := books_modify (c := c2) found2
  rw [books, Value.standing_setDirty]
  refine kept.put ?_
  rintro rfl place owns
  exact kept (standing_books found2) owns

theorem vacateVia_resides (run : Runs (vacateVia scratch r) c u c') : Resides frame c c' := by
  obtain ⟨_, run⟩ := runs_occupantOf_bind.mp run
  cases occupied : c.registers.occupant? r with
  | none => simp [occupied] at run
  | some v =>
    simp only [occupied] at run
    obtain ⟨value, _, run⟩ := runs_valueOf_bind.mp run
    obtain ⟨_, run⟩ | ⟨_, run⟩ := runs_ite.mp run
    · obtain ⟨_, unbound⟩ := runs_discard.mp run
      exact unbindRegister_resides unbound
    obtain ⟨_, run⟩ | ⟨_, run⟩ := runs_ite.mp run
    · simp only [runs_bind, runs_discard] at run
      obtain ⟨_, c1, written, _, unbound⟩ := run
      intro housed
      exact (writeBackVia_resides resides (housed.occupants occupied) written).trans
        (unbindRegister_resides unbound) housed
    · exact spill_resides run

end

theorem obtainRegister_resides {bank : Bank} (run : Runs (obtainRegister bank) c r c') :
    Resides frame c c' :=
  obtainRegister_induction (P := fun _ c _ c' => Resides frame c c') (fun _ => .refl _)
    (fun _ unbound => unbindRegister_resides unbound)
    (fun _ inner vacated => vacateVia_resides inner vacated) run

theorem vacateAll_resides (run : Runs vacateAll c u c') : Resides frame c c' := by
  simp only [vacateAll, runs_bind, runs_get, runs_pure, and_assoc, exists_and_left,
    exists_eq_left] at run
  obtain ⟨_, _, loop, _, rfl⟩ := run
  refine forIn_invariant (fun _ c1 => Resides frame c c1) ?_ (.refl c) loop
  rintro ⟨r, v⟩ rest c1 step c2 before round
  obtain ⟨_, round⟩ := runs_occupantOf_bind.mp round
  obtain ⟨_, round⟩ | ⟨_, round⟩ := runs_ite.mp round
  · simp only [runs_bind, runs_pure] at round
    obtain ⟨_, _, vacated, rfl, rfl⟩ := round
    exact ⟨rfl, before.trans (vacateVia_resides obtainRegister_resides vacated)⟩
  · obtain ⟨rfl, rfl⟩ := runs_pure.mp round
    exact ⟨rfl, before⟩

end

end RegisterBackend
