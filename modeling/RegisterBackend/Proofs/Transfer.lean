import RegisterBackend.Proofs.Conversion
import RegisterBackend.Proofs.Residence
import RegisterBackend.Proofs.Saving

/-!
Loads, stores and copies. `Moves` says that code first makes room, which loses nothing, and changes
its target in one last step. Where no register has to be emptied on the way the move is quiet.
-/
namespace RegisterBackend

open Gen RegisterFile Context Hardware MachineState Ty Instr Value

variable {bank : Bank} {bits passed : Word} {instrs : List Instr} {target place source : Position}
  {q src : Register}

section
variable {hw : Hardware} {p : Placement} {c c1 c2 c' : Context} {s s' : MachineState}
  {r dst : Register} {v : ValueId} {value : Value} {u : Unit} {w : Word} {ty : Ty}

def Context.Relocks (c c' : Context) : Prop :=
  ∃ locked, c' = { c with registers := { c.registers with locked } }

section
variable (relocks : c.Relocks c')
include relocks

theorem Context.Relocks.books : c'.books = c.books := by
  obtain ⟨_, rfl⟩ := relocks
  exact books_eq rfl (fun q => by cases bank : q.bank <;> simp [RegisterFile.occupant?,
    occupants, bank]) rfl

theorem Context.Relocks.values : c'.values = c.values := by
  obtain ⟨_, rfl⟩ := relocks
  rfl

theorem Context.Relocks.code : c'.code = c.code := by
  obtain ⟨_, rfl⟩ := relocks
  rfl

theorem Context.Relocks.extent : c'.extent = c.extent := by
  obtain ⟨_, rfl⟩ := relocks
  rfl

theorem Context.Relocks.leads : Leads c c' := by
  obtain ⟨_, rfl⟩ := relocks
  exact .of_same rfl rfl List.prefix_rfl rfl rfl rfl rfl

end

theorem Context.relocks_withLock (c : Context) (r : Register) (locked : Bool) :
    c.Relocks (c.withLock r locked) := ⟨_, rfl⟩

theorem Context.Relocks.trans (first : c.Relocks c1) (second : c1.Relocks c') : c.Relocks c' := by
  obtain ⟨_, rfl⟩ := first
  obtain ⟨_, rfl⟩ := second
  exact ⟨_, rfl⟩

theorem Context.books_consume (c : Context) (v : ValueId) (references : Nat) :
    { c with values := c.values.modify v ({ · with references }) }.books = c.books :=
  Books.ext (funext fun w => ValueStore.map_get?_modify _ v w _ fun _ => rfl) rfl rfl

theorem Instr.registers_of_execute {i : Instr} (ok : i.execute hw p s = some s')
    (other : i.dest? ≠ some r) : s'.registers r = s.registers r := by
  have apart {dst : Register} (is_dest : i.dest? = some dst) : r ≠ dst := by
    rintro rfl
    exact other is_dest
  cases i with
  | runtimeParam dst param =>
    cases param <;> cases ok
    · exact if_neg (apart rfl)
    · exact if_neg (apart rfl)
  | _ =>
    cases ok <;> first
      | rfl
      | exact if_neg (apart rfl)

/-- The instructions that `c'` has beyond those of `c` leave the register alone. -/
def Spares (q : Register) (c c' : Context) : Prop :=
  ∃ run, c'.code.toList = c.code.toList ++ run ∧ ∀ i ∈ run, i.dest? ≠ some q

namespace Spares

theorem of_code (same : c'.code = c.code) : Spares q c c' := ⟨[], by simp [same], by simp⟩

theorem trans (first : Spares q c c1) (second : Spares q c1 c') : Spares q c c' := by
  obtain ⟨run, code, spares⟩ := first
  obtain ⟨run', code', spares'⟩ := second
  refine ⟨run ++ run', by rw [code', code, List.append_assoc], fun i member => ?_⟩
  exact (List.mem_append.mp member).elim (spares i) (spares' i)

theorem appended (others : ∀ i ∈ instrs, i.dest? ≠ some q) : Spares q c (c.appended instrs) :=
  ⟨instrs, by simp [Context.appended], others⟩

theorem kept (spares : Spares q c c') (ran : Executes hw p c s c' s') :
    s'.registers q = s.registers q := by
  obtain ⟨run, code, spared⟩ := spares
  obtain ⟨run', code', ok⟩ := ran
  obtain rfl : run' = run := List.append_cancel_left (code'.symm.trans code)
  clear code code'
  induction run' generalizing s with
  | nil => exact congrArg (·.registers q) (Option.some.inj ok).symm
  | cons i rest ih =>
    rw [List.forall_mem_cons] at spared
    rw [executeAll_cons, Option.bind_eq_some_iff] at ok
    obtain ⟨t, first, later⟩ := ok
    exact (ih later spared.2).trans (registers_of_execute first spared.1)

end Spares

theorem obtainRegister_vacant (vacant : c.Vacant) (run : Runs (obtainRegister bank) c r c') :
    c' = c ∧ r.bank = bank ∧ r.inRange = true ∧ c.registers.isLocked r = false := by
  have empty {v : ValueId} : (r, v) ∉ c.candidates bank := by
    intro candidate
    cases (vacant r).symm.trans (mem_candidates.mp candidate).2.1
  obtain ⟨chosen, rfl⟩ | ⟨chosen, _⟩ | ⟨chosen, _⟩ := runs_obtainRegister run
  · obtain ⟨bank, range, _, unlocked⟩ := mem_free.mp (choose_cases chosen)
    exact ⟨rfl, bank, range, unlocked⟩
  · obtain ⟨_, _, candidate, _⟩ := choose_cases chosen
    exact (empty candidate).elim
  · obtain ⟨_, candidate⟩ := choose_cases chosen
    exact (empty candidate).elim

structure Scene where
  hw : Hardware
  p : Placement
  content : ValueId → Content
  /-- What is in memory according to these books is not moved away. -/
  origin : Books
  /-- The frame that quiet code keeps to, if it keeps to one. -/
  frame : Option FrameId
  /-- No register has to be emptied on the way. -/
  quiet : Prop

/-- If the move is quiet, the frame that it keeps to is one of these. -/
def Scene.Within (S : Scene) (frames : FrameId → Prop) : Prop :=
  S.quiet → ∀ f, S.frame = some f → frames f

/-- The books are right about the machine, and values in memory are where they were. -/
structure Scene.Ready (S : Scene) (b : Books) (s : MachineState) : Prop where
  tracks : Tracks S.hw S.p S.content b s
  anchors : S.origin.Anchors b

/-- The books stay as they are, and the code keeps to the frame and away from locked registers,
its target apart. -/
structure Tame (S : Scene) (into : Option Register) (c c' : Context) : Prop where
  books : c'.books = c.books
  stays : ∀ f, S.frame = some f → Stays f c c'
  spares : ∀ {q}, c.registers.isLocked q = true → into ≠ some q → Spares q c c'

/-- The code written from `c` to `c'` makes room and then ends with one step, from a machine about
which the books of `c'` are right. -/
structure Moves (S : Scene) (into : Option Register) (ends : MachineState → MachineState → Prop)
    (c c' : Context) : Prop extends Recedes (fun q => c.registers.isLocked q = false) c c' where
  tame : S.quiet → Tame S into c c'
  carries : ∀ {s}, S.Ready c.books s → S.quiet ∨ S.p.Separates c'.extent →
    ∃ s' t, Executes S.hw S.p c s c' t ∧ ends s' t ∧ S.Ready c'.books s'
      ∧ (∀ {r}, c.registers.isLocked r = true → s'.registers r = s.registers r)
      ∧ Saving S.p c s.memory c' s'.memory

variable {S : Scene} {into : Option Register} {ends later : MachineState → MachineState → Prop}

theorem Scene.Ready.set (ready : S.Ready c.books s)
    (empty : c.registers.occupant? r = none) (w : Word) : S.Ready c.books (s.set r w) :=
  ⟨ready.tracks.set empty w, ready.anchors⟩

namespace Tame

theorem refl (c : Context) : Tame S into c c := ⟨rfl, fun _ _ => .refl c, fun _ _ => .of_code rfl⟩

theorem trans (first : Tame S into c c1) (second : Tame S into c1 c')
    (locked : c1.registers.locked = c.registers.locked) : Tame S into c c' where
  books := second.books.trans first.books
  stays f is_frame := (first.stays f is_frame).trans (second.stays f is_frame)
  spares is_locked other := (first.spares is_locked other).trans
    (second.spares (by rwa [RegisterFile.isLocked, locked]) other)

theorem of_books (books : c'.books = c.books) (code : c'.code = c.code) : Tame S into c c' where
  books := books
  stays _ _ := .of_standing (by rw [books]) code
  spares _ _ := .of_code code

theorem holding (inner : Tame S into (c.withLock r true) c1) (locked : Bool) :
    Tame S into c (c1.withLock r locked) where
  books := by rw [books_withLock, inner.books, books_withLock]
  stays f is_frame := (inner.stays f is_frame).holding
  spares is_locked other := inner.spares (isLocked_lock r is_locked) other

theorem through (tame : Tame S (some r) c c') (unlocked : c.registers.isLocked r = false) :
    Tame S into c c' where
  books := tame.books
  stays := tame.stays
  spares is_locked _ := by
    refine tame.spares is_locked ?_
    rintro ⟨⟩
    simp [unlocked] at is_locked

end Tame

namespace Moves

theorem vacant (moves : Moves S into ends c c') (is_vacant : S.quiet → c.Vacant)
    (is_quiet : S.quiet) : c'.Vacant := fun r =>
  (congrFun (congrArg Books.occupant (moves.tame is_quiet).books) r).trans (is_vacant is_quiet r)

theorem empty (moves : Moves S into ends c c') (is_empty : c.registers.occupant? r = none) :
    c'.registers.occupant? r = none := by
  cases occupied : c'.registers.occupant? r with
  | none => rfl
  | some v => exact (moves.shrinks occupied).symm.trans is_empty

theorem refl (c : Context) : Moves S into Eq c c where
  toRecedes := .of_same (.refl c) rfl rfl
  tame _ := .refl c
  carries {s} ready _ := ⟨s, s, .of_code rfl, rfl, ready, fun _ => rfl, .refl c⟩

theorem mono (moves : Moves S into ends c c')
    (le : ∀ {s0 s t}, S.Ready c.books s0 → S.Ready c'.books s → ends s t → later s t) :
    Moves S into later c c' where
  toRecedes := moves.toRecedes
  tame := moves.tame
  carries ready separate := by
    obtain ⟨s', t, ran, ended, ready', kept⟩ := moves.carries ready separate
    exact ⟨s', t, ran, le ready ready' ended, ready', kept⟩

theorem trans (first : Moves S into Eq c c1) (second : Moves S into ends c1 c') :
    Moves S into ends c c' where
  toRecedes := first.toRecedes.trans (second.toRecedes.mono fun unlocked => by
    rwa [first.isLocked] at unlocked)
  tame is_quiet := (first.tame is_quiet).trans (second.tame is_quiet) first.locked
  carries ready separate := by
    obtain ⟨s1, _, ran, rfl, ready1, kept, saving⟩ :=
      first.carries ready (separate.imp_right (·.mono second.leads.extent))
    obtain ⟨s', t, ran', ended, ready', kept', saving'⟩ := second.carries ready1 separate
    refine ⟨s', t, ran.trans ran', ended, ready', fun is_locked => ?_, saving.trans saving'⟩
    rw [kept' ((first.isLocked _).trans is_locked), kept is_locked]

theorem append (first : Moves S into ends c c1)
    (names : ∀ i ∈ instrs, (∀ q, i.dest? = some q → into = some q) ∧ S.Within i.KeepsTo)
    (ok : ∀ {s t}, S.Ready c1.books s → ends s t →
      ∃ t', executeAll S.hw S.p instrs t = some t' ∧ later s t') :
    Moves S into later c (c1.appended instrs) where
  toRecedes := first.toRecedes.trans (.of_same (.appended _ _) rfl rfl)
  tame is_quiet := (first.tame is_quiet).trans
    ⟨rfl, fun f is_frame => .appended fun i member =>
      (names i member).2 is_quiet f is_frame, fun _ other =>
      .appended fun i member same => other ((names i member).1 _ same)⟩ first.locked
  carries ready separate := by
    obtain ⟨s', t, ran, ended, ready', kept, saving⟩ := first.carries ready separate
    obtain ⟨t', ran', ended'⟩ := ok ready' ended
    exact ⟨s', t', ran.trans (.appended ran'), ended', ready', kept,
      saving.trans (.of_books (.appended ..) rfl)⟩

theorem push (first : Moves S into ends c c1) (i : Instr)
    (dest : ∀ q, i.dest? = some q → into = some q) (keeps : S.Within i.KeepsTo)
    (ok : ∀ {s t}, S.Ready c1.books s → ends s t →
      ∃ t', i.execute S.hw S.p t = some t' ∧ later s t') :
    Moves S into later c (c1.pushed i) := by
  have pushed : c1.pushed i = c1.appended [i] := by simp [Context.pushed, Context.appended]
  rw [pushed]
  refine first.append (by simpa using ⟨dest, keeps⟩) fun ready ended => ?_
  obtain ⟨t', ran, ended'⟩ := ok ready ended
  exact ⟨t', by simp [ran], ended'⟩

theorem touch (first : Moves S into ends c c1) (run : Runs (touch v) c1 u c') :
    Moves S into ends c c' := by
  have leads := Leads.of_walks (Discipline.walks_touch v) run
  obtain ⟨_, rfl⟩ := runs_touch.mp run
  have books := books_touch c1 v
  have touched : Recedes (fun q => c.registers.isLocked q = false) c1
      { c1 with values := c1.values.touch v } := by
    refine ⟨leads, rfl, fun _ => rfl, id, fun {x value value'} found found' => ?_,
      fun {x value value'} found found' _ _ positioned => ?_⟩
    · have same :=
        c1.values.map_get?_touch v x (fun y => (y.references, y.isEscaped)) fun _ _ => rfl
      rw [found, found'] at same
      simpa using same
    · have same := c1.values.map_get?_touch v x Value.position fun _ _ => rfl
      rw [found, found', Option.map_some, Option.map_some, Option.some.injEq] at same
      rwa [same]
  refine ⟨first.toRecedes.trans touched, fun is_quiet => ?_, fun ready separate => ?_⟩
  · exact (first.tame is_quiet).trans (.of_books books rfl) first.locked
  · obtain ⟨s', t, ran, ended, ready', kept, saving⟩ := first.carries ready separate
    exact ⟨s', t, ran.trans (.of_code rfl), ended, books ▸ ready', kept,
      saving.trans (.of_books leads books)⟩

theorem unlocked_of_withLock (unlocked : (c.withLock r true).registers.isLocked q = false) :
    c.registers.isLocked q = false := by
  by_contra is_locked
  rw [Bool.not_eq_false] at is_locked
  simp [Context.withLock, isLocked_lock r is_locked] at unlocked

theorem holding (inner : Moves S into ends (c.withLock r true) c1) :
    Moves S into ends c (c1.withLock r (c.registers.isLocked r)) where
  toRecedes := (inner.toRecedes.mono unlocked_of_withLock).holding
  tame is_quiet := (inner.tame is_quiet).holding _
  carries ready separate := by
    obtain ⟨s', t, ran, ended, ready', kept, saving⟩ :=
      inner.carries (by simpa using ready) separate
    exact ⟨s', t, ran, ended, by simpa using ready', fun is_locked =>
      kept (isLocked_lock r is_locked), saving.holding _⟩

theorem through (first : Moves S (some r) (fun s t => t = s.set r w) c c')
    (empty : c'.registers.occupant? r = none) (unlocked : c.registers.isLocked r = false) :
    Moves S into (fun s t => t = s ∧ s.registers r = w) c c' where
  toRecedes := first.toRecedes
  tame is_quiet := (first.tame is_quiet).through unlocked
  carries ready separate := by
    obtain ⟨s', _, ran, rfl, ready', kept, saving⟩ := first.carries ready separate
    refine ⟨_, _, ran, ⟨rfl, by simp⟩, ready'.set empty w, fun {q} is_locked => ?_, saving⟩
    have other : q ≠ r := by
      rintro rfl
      simp [unlocked] at is_locked
    rw [registers_set, if_neg other, kept is_locked]

theorem held (first : Moves S (some r) (fun s t => t = s.set r w) (c.withLock r true) c1)
    (second : Moves S into ends c1 c2) (empty : c1.registers.occupant? r = none)
    (unlocked : c.registers.isLocked r = false) (range : r.inRange = true) :
    Moves S into (fun s t => ends s t ∧ s.registers r = w) c
      (c2.withLock r (c.registers.isLocked r)) := by
  have apart {q : Register} (is_locked : c.registers.isLocked q = true) : q ≠ r := by
    rintro rfl
    simp [unlocked] at is_locked
  have inner {q : Register} (is_locked : c.registers.isLocked q = true) :
      c1.registers.isLocked q = true :=
    (first.isLocked q).trans (isLocked_lock r is_locked)
  refine ⟨((first.toRecedes.trans (second.toRecedes.mono fun {q} free => by
    rwa [first.isLocked] at free)).mono unlocked_of_withLock).holding, fun is_quiet => ?_,
    fun {s} ready separate => ?_⟩
  · obtain ⟨books, stays, spares⟩ := first.tame is_quiet
    obtain ⟨books', stays', spares'⟩ := second.tame is_quiet
    refine ⟨by simp [books', books], fun f is_frame => ((stays f is_frame).trans
      (stays' f is_frame)).holding, fun {q} is_locked other => ?_⟩
    exact (spares (isLocked_lock r is_locked) fun same => apart is_locked
      (Option.some.inj same).symm).trans (spares' (inner is_locked) other)
  · obtain ⟨s1, _, ran, rfl, ready1, kept, saving⟩ :=
      first.carries (by simpa using ready) (separate.imp_right (·.mono second.leads.extent))
    obtain ⟨s', t, ran', ended, ready', kept', saving'⟩ :=
      second.carries (ready1.set empty w) separate
    have still : s'.registers r = w := by
      rw [kept' ((first.isLocked r).trans (isLocked_lock_self _ range))]
      simp
    refine ⟨s', t, ran.trans ran', ⟨ended, still⟩, by simpa using ready', fun {q} is_locked => ?_,
      (saving.trans saving').holding _⟩
    rw [kept' (inner is_locked), registers_set, if_neg (apart is_locked),
      kept (isLocked_lock r is_locked)]

end Moves

/-- What is left of a word that is brought into the form of the type. -/
def Ty.fitted (ty : Ty) (w : Word) : Word :=
  if 0 < ty.size ∧ ty.size < 8 then Word.narrow w ty.size ty.isSigned else w

theorem Ty.fitted_of_registerSized (sized : ty.RegisterSized) (w : Word) :
    ty.fitted w = Word.narrow w ty.size ty.isSigned := by
  have pos := sized.size_pos
  have le := sized.le
  unfold fitted
  split
  · rfl
  · obtain eight : ty.size = 8 := by omega
    rw [eight, narrow_word]

theorem Gen.runs_canonicalize_fitted (bank : r.bank = .int)
    (run : Runs (canonicalize r ty) c u c') : ∃ instrs, c' = c.appended instrs
      ∧ (∀ i ∈ instrs, i.dest? = some r ∧ ∀ frame, i.KeepsTo frame)
      ∧ ∀ hw p s, Instr.executeAll hw p instrs s = some (s.set r (ty.fitted (s.registers r))) := by
  unfold canonicalize at run
  obtain ⟨⟨_, narrow⟩, run⟩ | ⟨whole, run⟩ := runs_ite.mp run
  · have size : ty.size.toUInt8.toNat = ty.size := by
      rw [Nat.toUInt8, UInt8.toNat_ofNat']
      omega
    obtain ⟨signed, run⟩ | ⟨unsigned, run⟩ := runs_ite.mp run
    · refine ⟨[.signExtend r ty.size.toUInt8],
        ?_, by simp [Instr.dest?, Instr.KeepsTo], fun hw p s => ?_⟩
      · simp [runs_emit.mp run, Context.pushed, Context.appended]
      · simp [Instr.execute, size, signed, Ty.fitted, narrow]
    · refine ⟨[.mask r ty.size.toUInt8], ?_, by simp [Instr.dest?, Instr.KeepsTo], fun hw p s => ?_⟩
      · simp [runs_emit.mp run, Context.pushed, Context.appended]
      · simp [Instr.execute, size, unsigned, Ty.fitted, narrow]
  · rw [bank, eq_self, true_and] at whole
    refine ⟨[], by simp [(runs_pure.mp run).2, Context.appended], by simp, fun hw p s => ?_⟩
    rw [Ty.fitted, if_neg whole, MachineState.set_self rfl, Instr.executeAll_nil]

theorem Gen.runs_canonicalize (bank : r.bank = .int) (sized : ty.RegisterSized)
    (run : Runs (canonicalize r ty) c u c') : ∃ instrs, c' = c.appended instrs
      ∧ (∀ i ∈ instrs, i.dest? = some r ∧ ∀ frame, i.KeepsTo frame)
      ∧ ∀ hw p s, executeAll hw p instrs s
        = some (s.set r (Word.narrow (s.registers r) ty.size ty.isSigned)) := by
  simpa only [fitted_of_registerSized sized] using runs_canonicalize_fitted bank run

theorem Gen.runs_holderOf {occupied : List (Register × ValueId)}
    {holder : Option (Register × ValueId)} (run : Runs (holderOf bits occupied) c holder c') :
    c' = c ∧ ∀ r v, holder = some (r, v) → (r, v) ∈ occupied
      ∧ ∃ value, c.values.get? v = some value ∧ value.constant? = some bits := by
  induction occupied with
  | nil =>
    obtain ⟨rfl, rfl⟩ := runs_pure.mp run
    exact ⟨rfl, fun r v none_held => by cases none_held⟩
  | cons head rest ih =>
    obtain ⟨q, w⟩ := head
    obtain ⟨value, found, run⟩ := runs_valueOf_bind.mp run
    obtain ⟨is_bits, run⟩ | ⟨_, run⟩ := runs_ite.mp run
    · obtain ⟨rfl, rfl⟩ := runs_pure.mp run
      refine ⟨rfl, fun r v held => ?_⟩
      cases held
      exact ⟨by simp, value, found, is_bits⟩
    · obtain ⟨rfl, held⟩ := ih run
      refine ⟨rfl, fun r v same => ?_⟩
      obtain ⟨member, is_bits⟩ := held r v same
      exact ⟨List.mem_cons_of_mem _ member, is_bits⟩

theorem obtainRegister_moves (vacant : S.quiet → c.Vacant)
    (run : Runs (obtainRegister bank) c r c') :
    Moves S into Eq c c' ∧ c'.registers.occupant? r = none ∧ c'.registers.isLocked r = false
      ∧ r.bank = bank ∧ r.inRange = true := by
  have obtained : Obtains S.hw S.p bank c r c' := obtainRegister_obtains run
  have still (is_quiet : S.quiet) : c' = c := (obtainRegister_vacant (vacant is_quiet) run).1
  refine ⟨⟨obtained.room.toRecedes, fun is_quiet => still is_quiet ▸ .refl c',
    fun {s} ready separate => ?_⟩, obtained.empty,
      (obtained.room.isLocked r).trans obtained.unlocked, obtained.bank, obtained.range⟩
  rcases separate with is_quiet | separate
  · obtain rfl := still is_quiet
    exact ⟨s, s, .of_code rfl, rfl, ready, fun _ => rfl, .refl c'⟩
  · obtain ⟨s', ran, tracks, _, kept⟩ := obtained.room.carries ready.tracks separate
    have saving := (obtainRegister_confines run).saving obtained.room ready.tracks separate ran
    exact ⟨s', s', ran, rfl, ⟨tracks, ready.anchors.trans saving.anchors⟩, kept, saving⟩

theorem loadAddress_moves (keeps : S.Within place.KeepsTo)
    (run : Runs (loadAddress dst place) c u c') :
    Moves S (some dst) (fun s t => t = s.set dst (S.p.locate place)) c c' := by
  obtain ⟨_, instrs, rfl, names, ok⟩ := runs_loadAddress run
  refine (Moves.refl c).append
    (fun i member => ⟨fun q is_dest => (names i member).1.symm.trans is_dest,
    fun is_quiet f is_frame => (names i member).2 f (keeps is_quiet f is_frame)⟩) ?_
  rintro s _ _ rfl
  exact ⟨_, ok S.hw S.p s, rfl⟩

theorem Moves.canonicalize {g : MachineState → Word} (bank : dst.bank = .int)
    (sized : ty.RegisterSized) (first : Moves S (some dst) (fun s t => t = s.set dst (g s)) c c1)
    (run : Runs (canonicalize dst ty) c1 u c') :
    Moves S (some dst) (fun s t => t = s.set dst (Word.narrow (g s) ty.size ty.isSigned)) c c' := by
  obtain ⟨instrs, rfl, names, ok⟩ := runs_canonicalize bank sized run
  refine first.append (fun i member => ⟨fun q is_dest => (names i member).1.symm.trans is_dest,
    fun _ f _ => (names i member).2 f⟩) ?_
  rintro s _ _ rfl
  exact ⟨_, ok S.hw S.p _, by simp⟩

theorem load_moves (memory : source.isRegister = false)
    (vacant : S.quiet → source.needsBasePointer = true → c.Vacant) (keeps : S.Within source.KeepsTo)
    (bank : dst.bank = ty.bank) (sized : ty.RegisterSized)
    (run : Runs (load dst source ty) c u c') : Moves S (some dst)
    (fun s t => t = s.set dst (S.hw.loaded ty s.memory (S.p.locate source))) c c' := by
  have size := sized.toUInt8_toNat
  -- What was read from memory is brought into the form of the type.
  have fit {c1 : Context} (first : Moves S (some dst) (fun s t => t = s.set dst
      (S.hw.fetch dst.bank s.memory (S.p.locate source) ty.size)) c c1)
      (fitted : Runs (canonicalize dst ty) c1 u c') : Moves S (some dst) (fun s t =>
        t = s.set dst (S.hw.loaded ty s.memory (S.p.locate source))) c c' := by
    cases is_bank : ty.bank with
    | int =>
      rw [bank, is_bank] at first
      simp only [Hardware.loaded, is_bank]
      exact first.canonicalize (bank.trans is_bank) sized fitted
    | float =>
      rw [bank, is_bank] at first
      simp only [canonicalize, bank, is_bank, reduceCtorEq, false_and, ↓reduceIte,
        runs_pure] at fitted
      obtain ⟨_, rfl⟩ := fitted
      simp only [Hardware.loaded, is_bank]
      exact first
  -- A place without a stack address is reached through a register other than the target.
  have pointed (based : source.needsBasePointer = true) (run : Runs (do
      Gen.holding dst do
        let ptr ← obtainRegister .int
        loadAddress ptr source
        emit (.loadPtr dst ptr ty.size.toUInt8)
      canonicalize dst ty) c u c') : Moves S (some dst) (fun s t =>
        t = s.set dst (S.hw.loaded ty s.memory (S.p.locate source))) c c' := by
    simp only [runs_bind, runs_holding, runs_emit] at run
    obtain ⟨_, _, ⟨_, ⟨ptr, c1, taken, _, c2, addressed, rfl⟩, rfl⟩, fitted⟩ := run
    obtain ⟨obtained, empty, unlocked, _⟩ : Moves S (some dst) Eq _ c1 ∧ _ :=
      obtainRegister_moves (fun is_quiet => (vacant is_quiet based).withLock dst true) taken
    have address : Moves S (some ptr) _ c1 c2 := loadAddress_moves keeps addressed
    have pointer :
        Moves S (some dst) (fun s t => t = s ∧ s.registers ptr = S.p.locate source) c1 c2 :=
      address.through (address.empty empty) unlocked
    refine fit (obtained.trans (pointer.push (.loadPtr dst ptr ty.size.toUInt8)
      (by simp [Instr.dest?]) (fun _ _ _ => trivial) ?_)).holding fitted
    rintro s _ _ ⟨rfl, at_ptr⟩
    exact ⟨_, rfl, by rw [at_ptr, size]⟩
  cases source with
  | register src => cases memory
  | stack slot =>
    simp only [load, runs_bind, runs_emit] at run
    obtain ⟨_, _, rfl, fitted⟩ := run
    refine fit ((Moves.refl c).push (.loadStack dst slot ty.size.toUInt8)
      (by simp [Instr.dest?]) keeps ?_) fitted
    rintro s _ _ rfl
    exact ⟨_, rfl, by rw [size]; rfl⟩
  | static offset | constant id => exact pointed rfl run

theorem move_moves (word : ∀ {s}, S.Ready c.books s → s.registers src = w)
    (run : Runs (if src ≠ dst then emit (.mov dst src) else pure ()) c u c') :
    Moves S (some dst) (fun s t => t = s.set dst w) c c' := by
  obtain ⟨_, run⟩ | ⟨same, run⟩ := runs_ite.mp run
  · obtain rfl := runs_emit.mp run
    refine (Moves.refl c).push (.mov dst src) (by simp [dest?]) (fun _ _ _ => trivial) ?_
    rintro s _ ready rfl
    exact ⟨_, rfl, by rw [word ready]⟩
  · obtain ⟨_, rfl⟩ := runs_pure.mp run
    obtain rfl : src = dst := by simpa using same
    refine (Moves.refl _).mono fun _ ready same => ?_
    rw [← same, set_self (word ready)]

/-- Constants that are in registers have their bits as content. -/
def Scene.Knows (S : Scene) (c : Context) : Prop :=
  ∀ {r v value bits}, c.registers.occupant? r = some v → c.values.get? v = some value →
    value.constant? = some bits → S.content v = .word bits

theorem loadConstant_moves (knows : S.Knows c) (run : Runs (loadConstant dst bits) c u c') :
    Moves S (some dst) (fun s t => t = s.set dst bits) c c' := by
  simp only [loadConstant, runs_bind, runs_get, and_assoc, exists_and_left, exists_eq_left] at run
  obtain ⟨holder, _, searched, run⟩ := run
  obtain ⟨rfl, held⟩ := runs_holderOf searched
  cases holder with
  | none =>
    obtain rfl := runs_emit.mp run
    refine (Moves.refl _).push (.movImm dst (.value bits)) (by simp [Instr.dest?])
      (fun _ _ _ => trivial) ?_
    rintro s _ _ rfl
    exact ⟨_, rfl, rfl⟩
  | some pair =>
    obtain ⟨src, x⟩ := pair
    obtain ⟨member, value, found, is_bits⟩ := held src x rfl
    have occupied := (mem_occupied.mp member).2
    simp only [runs_bind] at run
    obtain ⟨_, c1, touched, run⟩ := run
    have first : Moves S (some dst) Eq _ c1 := (Moves.refl _).touch touched
    refine first.trans (move_moves (fun ready => ?_) run)
    obtain ⟨_, rfl⟩ := runs_touch.mp touched
    obtain ⟨_, _, _, _, _, word, _⟩ := ready.tracks.held occupied
    exact Content.word.inj (word.symm.trans (knows occupied found is_bits))

theorem Scene.Ready.read (ready : S.Ready c'.books s) (origin : S.origin = c.books)
    (leads : Leads c c') (found : c.values.get? v = some value)
    (at_place : value.position = some place) (memory : place.isRegister = false) :
    S.hw.read value.ty s.memory (S.p.locate place) = S.content v := by
  obtain ⟨st, standing, at_place'⟩ :=
    ready.anchors (origin ▸ standing_books found) at_place memory
  obtain ⟨value', found', ages⟩ := leads.values found
  obtain rfl := Option.mem_unique (standing_books found') standing
  obtain ⟨cell, is_cell, _⟩ := ready.tracks.located standing (.inl ⟨at_place', memory⟩)
  rw [Placement.locate_eq_address is_cell, ← ages.ty]
  exact ready.tracks.current standing (.inl ⟨at_place', memory⟩) is_cell

theorem Moves.rebase (moves : Moves { S with origin := c.books } into ends c c') :
    Moves S into ends c c' where
  toRecedes := moves.toRecedes
  tame is_quiet :=
    ⟨(moves.tame is_quiet).books, (moves.tame is_quiet).stays, (moves.tame is_quiet).spares⟩
  carries ready separate := by
    obtain ⟨s', t, ran, ended, ready', kept⟩ :=
      moves.carries ⟨ready.tracks, .refl _⟩ separate
    exact ⟨s', t, ran, ended, ⟨ready'.tracks, ready.anchors.trans ready'.anchors⟩, kept⟩

/-- What a quiet move relies on: the value has its memory in the frame, and the registers are empty
unless it can be reached without a pointer. -/
structure Scene.Calm (S : Scene) (b : Books) (v : ValueId) : Prop where
  lodges : ∀ f, S.frame = some f → b.Lodges f v
  vacant : (∃ st place, b.standing v = some st ∧ st.position = some place
    ∧ place.needsBasePointer = true) → ∀ r, b.occupant r = none

theorem loadValue_moves (found : c.values.get? v = some value) (is_word : S.content v = .word w)
    (constant : ∀ bits, value.constant? = some bits → w = bits) (knows : S.Knows c)
    (calm : S.quiet → S.Calm c.books v) (bank : dst.bank = value.ty.bank)
    (run : Runs (loadValue dst v) c u c') :
    Moves S (some dst) (fun s t => t = s.set dst w) c c' := by
  rw [loadValue, runs_found found] at run
  have standing := standing_books found
  cases is_constant : value.constant? with
  | some bits =>
    simp only [is_constant] at run
    rw [constant bits is_constant]
    exact loadConstant_moves knows run
  | none =>
    simp only [is_constant] at run
    cases at_place : value.position with
    | none => simp [at_place] at run
    | some place =>
      have loaded (memory : place.isRegister = false) (run : Runs (do
          if !value.ty.fitsRegister then
            inconsistent (.tooWide v value.description value.ty dst)
          load dst place value.ty
          Gen.touch v) c u c') : Moves S (some dst) (fun s t => t = s.set dst w) c c' := by
        obtain ⟨_, run⟩ | ⟨fits, run⟩ := runs_ite.mp run
        · simp at run
        simp only [runs_bind] at run
        obtain ⟨_, c1, loaded, touched⟩ := run
        have sized := registerSized_of_fitsRegister (by simpa using fits)
        have load : Moves { S with origin := c.books } (some dst) _ c c1 := load_moves memory
          (fun is_quiet based => (calm is_quiet).vacant ⟨_, _, standing, at_place, based⟩)
          (fun is_quiet f is_frame => (calm is_quiet).lodges f is_frame standing
            (.inl ⟨at_place, memory⟩))
          bank sized loaded
        refine (Moves.rebase (load.mono fun _ ready ended => ?_)).touch touched
        have read := ready.read rfl load.leads found at_place memory
        rw [read_of_registerSized sized] at read
        rw [ended, Content.word.inj (read.trans is_word)]
      cases place with
      | register src =>
        simp only [at_place] at run
        rw [runs_ite_then] at run
        obtain ⟨_, c1, moved, touched⟩ := run
        have move : Moves S (some dst) _ c c1 := move_moves (fun ready =>
          Content.word.inj ((ready.tracks.seated standing at_place).2.2.1.symm.trans is_word)) moved
        exact move.touch touched
      | stack slot | static offset | constant id =>
        exact loaded rfl (by simpa only [at_place] using run)

theorem store_moves (vacant : S.quiet → target.isRegister = false → c.Vacant)
    (keeps : S.Within target.KeepsTo) (run : Runs (store src target ty) c u c') :
    Moves S target.register?
    (fun s t => t = S.hw.stored S.p src target ty.size.toUInt8.toNat s) c c'
      ∧ c'.registers.occupant? src = c.registers.occupant? src := by
  have room : MakesRoom S.hw S.p _ _ c c' := storeVia_room obtainRegister_obtains run
  refine ⟨?_, room.occupant (by simp)⟩
  have pointed (memory : target.isRegister = false) (run : Runs (Gen.holding src do
      let ptr ← obtainRegister .int
      loadAddress ptr target
      emit (.storePtr ptr src ty.size.toUInt8)) c u c') : Moves S none (fun s t =>
        t = s.write (S.p.locate target)
          (S.hw.deposit src.bank (s.registers src) ty.size.toUInt8.toNat))
        c c' := by
    obtain ⟨_, block, rfl⟩ := runs_holding.mp run
    simp only [runs_bind, runs_emit] at block
    obtain ⟨ptr, c1, taken, _, c2, addressed, rfl⟩ := block
    obtain ⟨obtained, empty, unlocked, _⟩ : Moves S none Eq _ c1 ∧ _ :=
      obtainRegister_moves (fun is_quiet => (vacant is_quiet memory).withLock src true) taken
    have address : Moves S (some ptr) _ c1 c2 := loadAddress_moves keeps addressed
    refine (obtained.trans ((address.through (address.empty empty) unlocked).push
      (.storePtr ptr src ty.size.toUInt8) (by simp [dest?]) (fun _ _ _ => trivial) ?_)).holding
    rintro s _ _ ⟨rfl, at_ptr⟩
    exact ⟨_, rfl, by rw [at_ptr]⟩
  cases target with
  | register dst =>
    unfold store storeVia at run
    obtain ⟨_, run⟩ | ⟨same, run⟩ := runs_ite.mp run
    · obtain rfl := runs_emit.mp run
      refine (Moves.refl c).push (.mov dst src) (by simp [dest?, Position.register?])
        (fun _ _ _ => trivial) ?_
      rintro s _ _ rfl
      exact ⟨_, rfl, rfl⟩
    · obtain ⟨_, rfl⟩ := runs_pure.mp run
      obtain rfl : src = dst := by simpa using same
      refine (Moves.refl _).mono fun _ _ same => ?_
      rw [← same, Hardware.stored, set_self rfl]
  | stack slot =>
    obtain rfl := runs_emit.mp run
    refine (Moves.refl c).push (.storeStack src slot ty.size.toUInt8) (by simp [dest?]) keeps ?_
    rintro s _ _ rfl
    exact ⟨_, rfl, rfl⟩
  | static offset | constant id => exact pointed rfl run

/-- The last step of a copy: a register or the bytes of a place get the content. -/
def Hardware.Placed (hw : Hardware) (p : Placement) (ty : Ty) (target : Position) (passed : Content)
    (s t : MachineState) : Prop :=
  match target with
  | .register dst => ∃ w, passed = .word w ∧ t = s.set dst w
  | place => ∃ bytes, bytes.length = ty.size ∧ t = s.write (p.locate place) bytes
      ∧ hw.read ty t.memory (p.locate place) = passed

theorem Hardware.placed_stored (sized : ty.RegisterSized) (bank : r.bank = ty.bank)
    (in_register : target.isRegister = true → s.registers r = w)
    (in_memory : target.isRegister = false → hw.reloaded ty (s.registers r) = w) :
    hw.Placed p ty target (.word w) s (hw.stored p r target ty.size.toUInt8.toNat s) := by
  have there (memory : target.isRegister = false) (place : Word) : ∃ bytes, bytes.length = ty.size
      ∧ s.write place (hw.deposit r.bank (s.registers r) ty.size.toUInt8.toNat)
        = s.write place bytes
      ∧ hw.read ty
        (s.write place (hw.deposit r.bank (s.registers r) ty.size.toUInt8.toNat)).memory place
        = .word w := by
    rw [sized.toUInt8_toNat, bank, ← in_memory memory]
    exact ⟨_, length_deposit sized.le, rfl, read_deposited sized _ _ _⟩
  cases target with
  | register dst => exact ⟨w, rfl, by rw [stored, in_register rfl]⟩
  | _ => exact there rfl _

theorem Hardware.placed_copied (memory : target.isRegister = false) (small : ty.size < 2 ^ 64) :
    hw.Placed p ty target (hw.read ty s.memory (p.locate source)) s
      (s.write (p.locate target) (s.memory.bytes (p.locate source) ty.size)) := by
  have there :
      hw.read ty (s.memory.write (p.locate target) (s.memory.bytes (p.locate source) ty.size))
      (p.locate target) = hw.read ty s.memory (p.locate source) := by
    refine read_eq_of_bytes ?_
    have written := s.memory.bytes_write (p.locate target)
      (s.memory.bytes (p.locate source) ty.size) (by rw [Memory.length_bytes]; exact small.le)
    rwa [Memory.length_bytes] at written
  cases target with
  | register r => cases memory
  | _ => exact ⟨_, Memory.length_bytes _ _ _, rfl, there⟩

theorem Moves.stored (first : Moves S (some r) (fun s t => t = s.set r w) (c.withLock r true) c1)
    (vacant : S.quiet → target.isRegister = false → c.Vacant) (keeps : S.Within target.KeepsTo)
    (bank : r.bank = ty.bank) (sized : ty.RegisterSized)
    (chosen : target = .register r ∨ target.isRegister = false ∧ c.registers.occupant? r = none
      ∧ c.registers.isLocked r = false ∧ r.inRange = true)
    (in_register : target.isRegister = true → w = passed)
    (in_memory : target.isRegister = false → S.hw.reloaded ty w = passed)
    (run : Runs (store r target ty) c1 u c2) :
    Moves S target.register? (S.hw.Placed S.p ty target (.word passed)) c
      (c2.withLock r (c.registers.isLocked r)) := by
  rcases chosen with rfl | ⟨memory, empty, unlocked, range⟩
  · obtain rfl := in_register rfl
    simp only [store, storeVia, ne_eq, not_true_eq_false, ↓reduceIte, runs_pure] at run
    obtain ⟨_, rfl⟩ := run
    exact first.holding.mono fun _ _ ended => ⟨w, rfl, ended⟩
  · have store : Moves S target.register? _ c1 c2 := (store_moves (fun is_quiet _ =>
      first.vacant (fun is_quiet => (vacant is_quiet memory).withLock r true) is_quiet) keeps run).1
    refine (first.held store (first.empty (by simpa [Context.withLock] using empty))
      unlocked range).mono ?_
    rintro _ s _ _ _ ⟨rfl, is_word⟩
    exact placed_stored sized bank (fun register => by simp [memory] at register)
      fun _ => is_word ▸ in_memory memory

theorem copyMemory_moves {passed : Content} (vacant : S.quiet → c.Vacant)
    (keeps : S.Within target.KeepsTo) (keeps' : S.Within source.KeepsTo) (small : ty.size < 2 ^ 64)
    (reads : ∀ {c1 s}, Leads c c1 → S.Ready c1.books s → S.hw.read ty s.memory
      (S.p.locate source) = passed)
    (form : ty.RegisterSized → ∃ w, passed = .word w ∧ S.hw.reloaded ty w = w)
    (run : Runs (copyMemory target source ty) c u c') :
    Moves S target.register? (S.hw.Placed S.p ty target passed) c c' := by
  unfold copyMemory at run
  rw [runs_ite] at run
  obtain ⟨_, run⟩ | ⟨places, run⟩ := run
  · simp at run
  obtain ⟨memory, memory'⟩ : target.isRegister = false ∧ source.isRegister = false := by
    simpa [not_or] using places
  have copied {s t : MachineState} (ready : S.Ready c'.books s) (leads : Leads c c')
      (copy : t = s.write (S.p.locate target) (s.memory.bytes (S.p.locate source) ty.size)) :
      S.hw.Placed S.p ty target passed s t := by
    rw [copy, ← reads leads ready]
    exact placed_copied memory small
  have size : (BitVec.ofNat 64 ty.size).toNat = ty.size := by
    rw [BitVec.toNat_ofNat, Nat.mod_eq_of_lt small]
  split at run
  · next dst src =>
    obtain rfl := runs_emit.mp run
    have copy : Moves S
        none (fun s t => t = s.write (S.p.slot dst) (s.memory.bytes (S.p.slot src) ty.size)) c
        (c.pushed (.copyStack dst src (BitVec.ofNat 64 ty.size))) := by
      refine (Moves.refl c).push _ (by simp [Instr.dest?])
        (fun is_quiet f is_frame => ⟨keeps is_quiet f is_frame, keeps' is_quiet f is_frame⟩) ?_
      rintro s _ _ rfl
      exact ⟨_, rfl, by rw [size]⟩
    exact copy.mono fun _ ready ended => copied ready copy.leads ended
  obtain ⟨fits, run⟩ | ⟨_, run⟩ := runs_ite.mp run
  · have sized := Ty.registerSized_of_fitsRegister (Bool.and_eq_true_iff.mp fits).1
    simp only [runs_bind, runs_holding] at run
    obtain ⟨r, c0, taken, c2, ⟨_, c1, loaded, stored⟩, rfl⟩ := run
    obtain ⟨obtained, empty, unlocked, bank, range⟩ : Moves S target.register? Eq c c0 ∧ _ :=
      obtainRegister_moves vacant taken
    have load : Moves S (some r) _ (c0.withLock r true) c1 := load_moves memory'
      (fun is_quiet _ => (obtained.vacant vacant is_quiet).withLock r true) keeps' bank sized loaded
    obtain ⟨w, rfl, reloaded⟩ := form sized
    have first : Moves S (some r) (fun s t => t = s.set r w) (c0.withLock r true) c1 := by
      refine load.mono fun _ ready ended => ?_
      have read := reads (obtained.leads.trans ((Leads.withLock c0 r true).trans load.leads)) ready
      rw [read_of_registerSized sized] at read
      rw [ended, Content.word.inj read]
    exact obtained.trans
      (first.stored (fun is_quiet _ => obtained.vacant vacant is_quiet) keeps bank sized
      (.inr ⟨memory, empty, unlocked, range⟩) (fun _ => rfl) (fun _ => reloaded) stored)
  · simp only [runs_bind, runs_holding, runs_emit] at run
    obtain ⟨dst, c0, taken, _,
      ⟨_, c1, first, src, c2, taken', _, ⟨_, c3, second, rfl⟩, rfl⟩, rfl⟩ := run
    obtain ⟨obtained, empty, unlocked, _, range⟩ : Moves S target.register? Eq c c0 ∧ _ :=
      obtainRegister_moves vacant taken
    have to_dst : Moves S (some dst) _ (c0.withLock dst true) c1 := loadAddress_moves keeps first
    obtain ⟨obtained', empty', unlocked', _, range'⟩ : Moves S target.register? Eq c1 c2 ∧ _ :=
      obtainRegister_moves (to_dst.vacant fun is_quiet =>
        (obtained.vacant vacant is_quiet).withLock dst true) taken'
    have to_src : Moves S (some src) _ (c2.withLock src true) c3 := loadAddress_moves keeps' second
    have copy : Moves S target.register? (fun s t => t = s.write (s.registers dst)
        (s.memory.bytes (s.registers src) ty.size)) c3
        (c3.pushed (.copyMem dst src (BitVec.ofNat 64 ty.size))) := by
      refine (Moves.refl c3).push _ (by simp [Instr.dest?]) (fun _ _ _ => trivial) ?_
      rintro s _ _ rfl
      exact ⟨_, rfl, by rw [size]⟩
    have inner := obtained'.trans (to_src.held copy
      (to_src.empty (by simpa [Context.withLock] using empty')) unlocked' range')
    have whole := obtained.trans (to_dst.held inner
      (to_dst.empty (by simpa [Context.withLock] using empty)) unlocked range)
    refine whole.mono fun _ ready ended => ?_
    obtain ⟨⟨copy, at_src⟩, at_dst⟩ := ended
    exact copied ready whole.leads (by rw [copy, at_src, at_dst])

theorem Hardware.reloaded_converted {source : Ty} (serves : source.Serves ty) (regular : ty.Regular)
    (sized : ty.RegisterSized) (canonical : hw.Canonical source w) :
    .word (hw.reloaded ty w) = hw.converted source ty (.word w) := by
  rw [converted]
  split
  · next scalar =>
    obtain ⟨_, wide⟩ := regular (Bool.and_eq_true_iff.mp scalar).2
    rw [reloaded_eq_fitted sized wide (canonical.of_isBool serves.bank serves.truth)]
  · next other =>
    rw [reloaded_of_canonical sized (canonical.of_alike (serves.plain (by simpa using other)))]

/-- What is known of a value that is copied: the bits of constants, and what a quiet copy relies on.
-/
structure Scene.Supplies (S : Scene) (c : Context) (v : ValueId) (value : Value) : Prop where
  found : c.values.get? v = some value
  constant : ∀ {bits}, value.constant? = some bits → S.content v = .word bits
    ∧ value.ty.isScalar = true ∧ S.hw.Canonical value.ty bits
  knows : S.Knows c
  calm : S.quiet → S.Calm c.books v

theorem Scene.Supplies.after (supplies : S.Supplies c v value) (moves : Moves S into ends c c') :
    ∃ value', S.Supplies c' v value' ∧ value'.ty = value.ty
    ∧ value'.constant? = value.constant? := by
  obtain ⟨value', found', ages⟩ := moves.leads.values supplies.found
  have constant := constant?_eq_of_nature ages.nature
  refine ⟨value',
    ⟨found', fun is_bits => ?_, fun {r x y bits} occupied found is_bits => ?_, fun is_quiet => ?_⟩,
      ages.ty, constant⟩
  · rw [ages.ty]
    exact supplies.constant (constant ▸ is_bits)
  · obtain ⟨y0, found0, ages⟩ := moves.leads.before found
    exact supplies.knows (moves.shrinks occupied) found0
      (constant?_eq_of_nature ages.nature ▸ is_bits)
  · rw [(moves.tame is_quiet).books]
    exact supplies.calm is_quiet

theorem Scene.Supplies.withLock (supplies : S.Supplies c v value) (r : Register) :
    S.Supplies (c.withLock r true) v value where
  found := supplies.found
  constant := supplies.constant
  knows occupied := supplies.knows (by simpa [Context.withLock] using occupied)
  calm is_quiet := by
    rw [books_withLock]
    exact supplies.calm is_quiet

def Value.IsLoadable (value : Value) : Prop :=
  value.isConstant = true ∨ ∃ place, value.position = some place
    ∧ (place.isRegister = false → value.ty.RegisterSized)

theorem isLoadable_of_loadValue (found : c.values.get? v = some value)
    (run : Runs (loadValue dst v) c u c') : value.IsLoadable := by
  rw [loadValue, runs_found found] at run
  cases is_constant : value.constant? with
  | some bits => exact .inl (by simp [isConstant, is_constant])
  | none =>
    cases at_place : value.position with
    | none => simp [is_constant, at_place] at run
    | some place =>
      refine .inr ⟨place, at_place, fun memory => registerSized_of_fitsRegister ?_⟩
      by_contra wide
      rw [Bool.not_eq_true] at wide
      cases place with
      | register q => cases memory
      | _ => simp [is_constant, at_place, wide] at run

theorem Scene.Supplies.word (supplies : S.Supplies c v value) (ready : S.Ready c.books s)
    (loadable : value.IsLoadable) : ∃ w, S.content v = .word w ∧ S.hw.Canonical value.ty w := by
  have standing := standing_books supplies.found
  rcases loadable with is_constant | ⟨place, at_place, sized⟩
  · obtain ⟨bits, is_bits⟩ := Option.isSome_iff_exists.mp is_constant
    obtain ⟨is_word, _, canonical⟩ := supplies.constant is_bits
    exact ⟨bits, is_word, canonical⟩
  · obtain ⟨w, is_word⟩ : ∃ w, S.content v = .word w := by
      cases memory : place.isRegister with
      | false =>
        obtain ⟨cell, is_cell, _⟩ := ready.tracks.located standing (.inl ⟨at_place, memory⟩)
        have read := ready.tracks.current standing (.inl ⟨at_place, memory⟩) is_cell
        exact ⟨_, read.symm.trans (read_of_registerSized (sized memory) _ _)⟩
      | true =>
        cases place with
        | register r => exact ⟨_, (ready.tracks.seated standing at_place).2.2.1⟩
        | _ => cases memory
    exact ⟨w, is_word, ready.tracks.canonical standing (by simp [Value.standing, at_place]) is_word⟩

def Value.Sits (value : Value) (c c' : Context) : Prop :=
  ∀ q, value.constant? = none → value.position = some (.register q) →
    c'.registers.occupant? q = c.registers.occupant? q

section
variable (supplies : S.Supplies c v value) (ready : S.Ready c.books s)
  (vacant : S.quiet → target.isRegister = false → c.Vacant) (keeps : S.Within target.KeepsTo)
include supplies ready vacant keeps

theorem copyTo_moves (memory : target.isRegister = false) (apart : value.position ≠ some target)
    (serves : value.ty.Serves ty) (scalar : value.isConstant = true → ty.isScalar = true)
    (regular : ty.Regular) (small : ty.size < 2 ^ 64) (run : Runs (copyTo v target ty) c u c') :
    Moves S target.register?
    (S.hw.Placed S.p ty target (S.hw.converted value.ty ty (S.content v))) c c'
      ∧ value.Sits c c' := by
  have standing := standing_books supplies.found
  unfold copyTo at run
  split at run
  · cases memory
  rw [runs_found supplies.found] at run
  cases is_constant : value.constant? with
  | some bits =>
    obtain ⟨is_bits, _, canonical⟩ := supplies.constant is_constant
    obtain ⟨sized, _⟩ := regular (scalar (by simp [isConstant, is_constant]))
    simp only [is_constant, runs_bind, runs_holding] at run
    obtain ⟨r, c0, taken, c2, ⟨_, c1, loaded, stored⟩, rfl⟩ := run
    obtain ⟨obtained, empty, unlocked, bank, range⟩ : Moves S target.register? Eq c c0 ∧ _ :=
      obtainRegister_moves (fun is_quiet => vacant is_quiet memory) taken
    obtain ⟨value0, supplies0, _⟩ := supplies.after obtained
    have first : Moves S (some r) _ (c0.withLock r true) c1 :=
      loadConstant_moves (supplies0.withLock r).knows loaded
    rw [is_bits, ← reloaded_converted serves regular sized canonical]
    refine ⟨?_, fun _ other => by cases is_constant.symm.trans other⟩
    exact obtained.trans
      (first.stored (fun is_quiet _ => obtained.vacant (vacant · memory) is_quiet) keeps
      (bank.trans serves.bank) sized (.inr ⟨memory, empty, unlocked, range⟩)
      (fun register => by simp [memory] at register) (fun _ => rfl) stored)
  | none =>
    cases at_place : value.position with
    | none => simp [is_constant, at_place] at run
    | some place =>
      have canonical {w : Word} (is_word : S.content v = .word w) : S.hw.Canonical value.ty w :=
        ready.tracks.canonical standing (by simp [Value.standing, at_place]) is_word
      have copied (memory' : place.isRegister = false) (run : Runs (do
          if place ≠ target then copyMemory target place ty) c u c') : Moves S target.register?
            (S.hw.Placed S.p ty target (S.hw.converted value.ty ty (S.content v))) c c'
              ∧ value.Sits c c' := by
        refine ⟨?_, fun _ _ at_register => ?_⟩
        case refine_2 =>
          cases at_place.symm.trans at_register
          cases memory'
        rw [if_pos (show place ≠ target from fun same => apart (same ▸ at_place))] at run
        have reads {c1 : Context} {s : MachineState} (leads : Leads c c1)
            (ready : { S with origin := c.books }.Ready c1.books s) :
            S.hw.read ty s.memory (S.p.locate place) = S.hw.converted value.ty ty
              (S.content v) := by
          have read := ready.read rfl leads supplies.found at_place memory'
          rw [← read, ← read_converted serves regular fun w is_word => canonical (read ▸ is_word)]
        have ready' : { S with origin := c.books }.Ready c.books s :=
          ⟨ready.tracks, .refl _⟩
        refine Moves.rebase (copyMemory_moves (vacant · memory) keeps (fun is_quiet f is_frame =>
          (supplies.calm is_quiet).lodges f is_frame standing
            (.inl ⟨at_place, memory'⟩)) small reads
          (fun sized => ?_) run)
        have now := reads (.refl c) ready'
        rw [read_of_registerSized sized] at now
        have sized' : value.ty.RegisterSized := by rwa [Ty.RegisterSized, serves.size]
        have read := ready'.read rfl (.refl c) supplies.found at_place memory'
        rw [read_of_registerSized sized'] at read
        exact ⟨_, now.symm, reloaded_loaded serves.size serves.bank sized (canonical read.symm)⟩
      cases place with
      | register src =>
        simp only [is_constant, at_place, runs_bind] at run
        obtain ⟨_, c1, touched, stored⟩ := run
        obtain ⟨bank, sized', is_word, _⟩ := ready.tracks.seated standing at_place
        have sized : ty.RegisterSized := by rwa [Ty.RegisterSized, ← serves.size]
        have first : Moves S target.register? Eq c c1 := (Moves.refl c).touch touched
        obtain ⟨store, spared⟩ : Moves S target.register? _ c1 c' ∧ _ := store_moves
          (fun is_quiet _ => first.vacant (vacant · memory) is_quiet) keeps stored
        obtain ⟨_, rfl⟩ := runs_touch.mp touched
        refine ⟨(first.trans store).mono fun {_ t _} _ ready' ended => ?_,
          fun q _ at_register => ?_⟩
        case refine_2 =>
          cases at_place.symm.trans at_register
          exact spared
        have still := (spared.trans (ready.tracks.owned standing at_place) :
          c'.registers.occupant? src = some v)
        obtain ⟨_, _, _, _, _, is_word', _⟩ := ready'.tracks.held still
        rw [ended, is_word', ← reloaded_converted serves regular sized (canonical is_word')]
        exact placed_stored sized (bank.symm.trans serves.bank)
          (fun register => by simp [memory] at register) fun _ => rfl
      | stack slot | static offset | constant id =>
        exact copied rfl (by simpa only [is_constant, at_place] using run)

omit supplies ready vacant keeps in
theorem fit_moves {source : Ty} {toRegister : Bool} {next : Gen Unit}
    (first : Moves S (some r) (fun s t => t = s.set r w) c c1) (bank : r.bank = ty.bank)
    (banks : source.bank = ty.bank) (sized : ty.RegisterSized)
    (wide : ty.isFloat = true → 4 ≤ ty.size) (sized' : source.RegisterSized)
    (wide' : source.isFloat = true → 4 ≤ source.size) (canonical : S.hw.Canonical source w)
    (differ : ty.bank = .float → source.size ≠ ty.size) (run : Runs (do
      if ty.isBool && !source.isBool then
        emit (.cmpImm r 0 .ne)
      else if source.isFloat then
        if toRegister && ty.size < source.size then narrowFloat r ty
      else if ty.size < source.size || toRegister then
        Gen.canonicalize r ty
      next) c1 u c') :
    ∃ w' c2, Moves S (some r) (fun s t => t = s.set r w') c c2 ∧ Runs next c2 u c'
      ∧ (toRegister = true → w' = S.hw.fitted ty w)
      ∧ (toRegister = false → S.hw.reloaded ty w' = S.hw.fitted ty w) := by
  obtain ⟨to_bool, run⟩ | ⟨not_to_bool, run⟩ := runs_ite.mp run
  · simp only [Bool.and_eq_true, Bool.not_eq_true'] at to_bool
    have int := Ty.bank_of_isBool to_bool.1
    have fitted : S.hw.fitted ty w = Word.ofBool (w != 0) := by
      simp only [Hardware.fitted, int, Ty.canonicalBits_of_isBool to_bool.1]
    simp only [runs_bind, runs_emit] at run
    obtain ⟨_, _, rfl, rest⟩ := run
    refine ⟨Word.ofBool (w != 0), _, first.push (.cmpImm r 0 .ne) (by simp [Instr.dest?])
      (fun _ _ _ => trivial) ?_, rest, fun _ => fitted.symm, fun _ => ?_⟩
    · rintro s _ _ rfl
      exact ⟨_, rfl, by simp [Cond.holds]⟩
    · rw [fitted, ← Ty.canonicalBits_of_isBool to_bool.1, reloaded_canonicalBits sized int]
  have truth (is_bool : ty.isBool = true) : source.isBool = true := by
    simpa [is_bool] using not_to_bool
  have reloaded : S.hw.reloaded ty w = S.hw.fitted ty w :=
    reloaded_eq_fitted sized wide (canonical.of_isBool banks truth)
  obtain ⟨float, run⟩ | ⟨not_float, run⟩ := runs_ite.mp run
  · have from_float : source.bank = .float := by simp [Ty.bank, float]
    have to_float : ty.bank = .float := banks.symm.trans from_float
    have size := sized.float wide to_float
    have size' := sized'.float wide' from_float
    have other := differ to_float
    obtain ⟨narrower, run⟩ | ⟨not_narrower, run⟩ := runs_ite.mp run
    · simp only [Bool.and_eq_true, decide_eq_true_eq] at narrower
      have four : ty.size = 4 := by omega
      simp only [runs_bind, narrowFloat, bank, to_float,
        Ty.isFloat_of_bank to_float, four, and_self, ↓reduceIte, runs_emit] at run
      obtain ⟨_, _, rfl, rest⟩ := run
      refine ⟨S.hw.fitted ty w, _, first.push (.floatNarrow r) (by simp [Instr.dest?])
        (fun _ _ _ => trivial) ?_, rest, fun _ => rfl, fun memory => by simp [memory] at narrower⟩
      rintro s _ _ rfl
      exact ⟨_, rfl, by simp [Hardware.fitted, to_float, four]⟩
    · refine ⟨w, c1, first, run, fun register => ?_, fun _ => reloaded⟩
      simp only [register, Bool.true_and, decide_eq_true_eq] at not_narrower
      have eight : ty.size = 8 := by omega
      simp [Hardware.fitted, to_float, eight]
  · have from_int : source.bank = .int := by simp [Ty.bank, not_float]
    have to_int : ty.bank = .int := banks.symm.trans from_int
    obtain ⟨_, run⟩ | ⟨unchanged, run⟩ := runs_ite.mp run
    · obtain ⟨_, c2, canonicalized, rest⟩ := runs_bind.mp run
      have narrowed : Word.narrow w ty.size ty.isSigned = S.hw.fitted ty w := by
        rw [← reloaded]
        simp only [Hardware.reloaded, to_int]
      refine ⟨_, c2, first.canonicalize (bank.trans to_int) sized canonicalized, rest,
        fun _ => narrowed, fun _ => ?_⟩
      rw [narrowed]
      simp only [Hardware.fitted, to_int, reloaded_canonicalBits sized to_int]
    · exact ⟨w, c1, first, run, fun register => by simp [register] at unchanged, fun _ => reloaded⟩

omit supplies ready keeps in
theorem targetRegister_moves (suits : ∀ q, target = .register q → q.bank = bank)
    (run : Runs (targetRegister target bank) c r c') :
    Moves S into Eq c c' ∧ r.bank = bank ∧ (target = .register r ∨ target.isRegister = false
      ∧ c'.registers.occupant? r = none ∧ c'.registers.isLocked r = false ∧ r.inRange = true) := by
  cases memory : target.isRegister with
  | true =>
    cases target <;> cases memory
    obtain ⟨rfl, rfl⟩ := runs_pure.mp run
    exact ⟨.refl _, suits _ rfl, .inl rfl⟩
  | false =>
    have run : Runs (obtainRegister bank) c r c' := by
      cases target <;> first | exact run | cases memory
    obtain ⟨moves, empty, unlocked, is_bank, range⟩ : Moves S into Eq c c' ∧ _ :=
      obtainRegister_moves (vacant · memory) run
    exact ⟨moves, is_bank, .inr ⟨rfl, empty, unlocked, range⟩⟩

theorem convertInRegister_moves (known : S.quiet ∨ value.IsLoadable)
    (suits : ∀ q, target = .register q → q.bank = ty.bank) (scalar : value.ty.isScalar = true)
    (scalar' : ty.isScalar = true) (regular : value.ty.Regular) (regular' : ty.Regular)
    (banks : value.ty.bank = ty.bank) (differ : ty.bank = .float → value.ty.size ≠ ty.size)
    (run : Runs (do
      let r ← targetRegister target ty.bank
      Gen.holding r do
        loadValue r v
        if ty.isBool && !value.ty.isBool then
          emit (.cmpImm r 0 .ne)
        else if value.ty.isFloat then
          if target.isRegister && ty.size < value.ty.size then narrowFloat r ty
        else if ty.size < value.ty.size || target.isRegister then
          Gen.canonicalize r ty
        store r target ty) c u c') :
    Moves S target.register?
    (S.hw.Placed S.p ty target (S.hw.converted value.ty ty (S.content v))) c c' := by
  obtain ⟨sized, wide⟩ := regular scalar
  obtain ⟨sized', wide'⟩ := regular' scalar'
  obtain ⟨r, c0, taken, block⟩ := runs_bind.mp run
  obtain ⟨c3, inner, rfl⟩ := runs_holding.mp block
  obtain ⟨_, c1, loaded, rest⟩ := runs_bind.mp inner
  obtain ⟨obtained, bank, chosen⟩ : Moves S target.register? Eq c c0 ∧ _ :=
    targetRegister_moves vacant suits taken
  obtain ⟨value0, supplies0, same_ty, constant⟩ := supplies.after obtained
  have locked := supplies0.withLock r
  have loadable : value.IsLoadable := by
    rcases known with is_quiet | loadable
    · have standing := standing_books supplies0.found
      rw [(obtained.tame is_quiet).books, standing_books supplies.found] at standing
      have position : value.position = value0.position :=
        congrArg Standing.position (Option.some.inj standing)
      simpa only [Value.IsLoadable, isConstant, constant, same_ty, position] using
        isLoadable_of_loadValue locked.found loaded
    · exact loadable
  obtain ⟨w, is_word, canonical⟩ := supplies.word ready loadable
  have load : Moves S (some r) _ (c0.withLock r true) c1 := loadValue_moves locked.found is_word
    (fun bits is_bits => Content.word.inj (is_word.symm.trans (locked.constant is_bits).1))
      locked.knows
    locked.calm (by rw [bank, same_ty, banks]) loaded
  obtain ⟨w', c2, fits, stored, in_register, in_memory⟩ :=
    fit_moves load bank banks sized' wide' sized wide canonical differ rest
  have converted : S.hw.converted value.ty ty (S.content v) = .word (S.hw.fitted ty w) := by
    simp [is_word, Hardware.converted, scalar, scalar']
  rw [converted]
  exact obtained.trans
    (fits.stored (fun is_quiet memory => obtained.vacant (vacant · memory) is_quiet) keeps
    bank sized' chosen in_register in_memory stored)

theorem copyConverted_moves (known : S.quiet ∨ value.IsLoadable)
    (suits : ∀ q, target = .register q → q.bank = ty.bank)
    (apart : target.isRegister = false → value.position ≠ some target)
    (regular : value.ty.Regular) (regular' : ty.Regular) (small : ty.size < 2 ^ 64)
    (plain : (value.ty.isScalar && ty.isScalar) = false → value.ty.Alike ty)
    (constant : value.isConstant = true → ty.isScalar = true)
    (not_decays : (value.ty.isArray && ty.isPointer) = false)
    (run : Runs (copyConverted v target ty) c u c') : Moves S target.register?
    (S.hw.Placed S.p ty target (S.hw.converted value.ty ty (S.content v))) c c'
      ∧ value.Sits c c' := by
  simp only [copyConverted, runs_found supplies.found, not_decays, Bool.false_eq_true,
    ↓reduceIte] at run
  obtain ⟨_, run⟩ | ⟨one_bank, run⟩ := runs_ite.mp run
  · simp at run
  obtain ⟨_, run⟩ | ⟨_, run⟩ := runs_ite.mp run
  · simp at run
  have banks : value.ty.bank = ty.bank := by
    cases scalar : value.ty.isScalar && ty.isScalar with
    | false => exact (plain scalar).bank
    | true => simpa [scalar] using one_bank
  obtain ⟨as_is, run⟩ | ⟨different, run⟩ := runs_ite.mp run
  · have truth (is_bool : ty.isBool = true) : value.ty.isBool = true := by
      simp only [is_bool, Bool.true_and, Bool.not_not, Bool.and_eq_true] at as_is
      exact as_is.1
    have size : value.ty.size = ty.size := by
      cases scalar : value.ty.isScalar && ty.isScalar with
      | false => exact (plain scalar).size
      | true =>
        simp only [scalar, Bool.not_true, Bool.false_or, Bool.and_eq_true, beq_iff_eq] at as_is
        exact as_is.2.1
    cases memory : target.isRegister with
    | false =>
      exact copyTo_moves supplies ready vacant keeps memory (apart memory)
        ⟨size, banks, truth, plain⟩ constant
        regular' small run
    | true =>
      cases target with
      | register r =>
        obtain ⟨w, is_word, canonical⟩ :=
          supplies.word ready (isLoadable_of_loadValue supplies.found run)
        have load : Moves S (some r) _ c c' := loadValue_moves supplies.found is_word
          (fun bits is_bits => Content.word.inj (is_word.symm.trans (supplies.constant is_bits).1))
          supplies.knows supplies.calm ((suits r rfl).trans banks.symm) run
        refine ⟨load.mono fun _ _ ended => ⟨w, ?_, ended⟩, fun q other at_register => ?_⟩
        case refine_2 =>
          have calm : { S with quiet := True, frame := none }.Calm c.books v := by
            refine ⟨(fun _ is_frame => by cases is_frame), ?_⟩
            rintro ⟨_, _, standing, at_place, based⟩
            obtain rfl := Option.mem_unique (standing_books supplies.found) standing
            cases at_register.symm.trans at_place
            cases based
          have still : Moves { S with quiet := True, frame := none } (some r) _ c c' :=
            loadValue_moves supplies.found is_word
              (fun bits is_bits => by cases other.symm.trans is_bits)
              supplies.knows (fun _ => calm) ((suits r rfl).trans banks.symm) run
          exact congrFun (congrArg Books.occupant (still.tame trivial).books) q
        rw [is_word, Hardware.converted]
        split
        · next scalar =>
          obtain ⟨sized, wide⟩ := regular' (Bool.and_eq_true_iff.mp scalar).2
          rw [fitted_of_canonical sized wide ?_]
          cases bank : ty.bank with
          | float => exact canonical.of_float size banks bank
          | int =>
            have kept : value.ty.unqualified = ty.unqualified := by
              simpa [scalar, bank, size, memory] using (Bool.and_eq_true_iff.mp as_is).2
            exact canonical.of_alike (.of_unqualified kept)
        · rfl
      | _ => cases memory
  · have scalar : (value.ty.isScalar && ty.isScalar) = true := by
      by_contra other
      rw [Bool.not_eq_true] at other
      simp [other, (plain other).isBool] at different
    have differ (float : ty.bank = .float) : value.ty.size ≠ ty.size := by
      intro same
      have not_bool : ty.isBool = false := by
        by_contra is_bool
        rw [Bool.not_eq_false] at is_bool
        cases float.symm.trans (Ty.bank_of_isBool is_bool)
      simp [scalar, float, same, not_bool] at different
    obtain ⟨is_scalar, is_scalar'⟩ := Bool.and_eq_true_iff.mp scalar
    rw [holdingRegisterOf, runs_found supplies.found] at run
    cases at_register : value.register? with
    | none =>
      rw [at_register] at run
      refine ⟨convertInRegister_moves supplies ready vacant keeps known suits is_scalar
        is_scalar' regular regular' banks differ run, fun q _ at_q => ?_⟩
      simp [Value.register?, at_q, Position.register?] at at_register
    | some q =>
      rw [at_register] at run
      obtain ⟨c1, inner, rfl⟩ := runs_holding.mp run
      have moves := convertInRegister_moves (supplies.withLock q) (by simpa using ready)
        (fun is_quiet memory => (vacant is_quiet memory).withLock q true) keeps
          known suits is_scalar
        is_scalar' regular regular' banks differ inner
      refine ⟨moves.holding, fun r _ at_r => ?_⟩
      obtain rfl : q = r := by
        simpa [Value.register?, at_r, Position.register?] using at_register.symm
      have range : q.inRange = true := inRange_of_occupant?
        (ready.tracks.owned (standing_books supplies.found) at_r)
      have kept := moves.occupant (r := q) (by
        simp [Context.withLock, isLocked_lock_self _ range])
      simpa [Context.withLock] using kept

end

end

end RegisterBackend
