import RegisterBackend.Proofs.Consistency
import RegisterBackend.Proofs.Passing

/-!
Lowering a call. When the call itself is reached, each place holds what its parameter is to receive
and the header holds the address of the buffer.
-/
namespace RegisterBackend

open Gen Discipline CallLayout Hardware Leads List

variable {sig : Signature} {bound i n size : Nat} {buffer : Option StackSlot} {callee : Callee}
  {layout : CallLayout} {result : Option ValueId} {start : Option LabelId}

section
variable {hw : Hardware} {p : Placement} {content : ValueId → Content} {frame : FrameId}
  {c c1 c2 c' : Context} {s s1 s' : MachineState} {v : ValueId} {place : ArgumentPlace} {ty : Ty}
  {u : Unit} {args rest : List (ValueId × ArgumentPlace × Ty)} {α β γ : Type} {a : α} {as : List α}
  {bs : List β} {cs : List γ}

def ArgumentPlace.Unmixed (p : Placement) (a b : ArgumentPlace × Ty) : Prop :=
  (∀ r, a.1 = .register r → b.1 ≠ .register r)
    ∧ ∀ address, a.1.Covers p a.2.size address → ¬b.1.Covers p b.2.size address

/-- Each place holds what its parameter is to receive, and its register is locked. Other bytes
and registers that are locked stay as they are. -/
structure Places (hw : Hardware) (p : Placement) (content : ValueId → Content) (frame : FrameId)
    (args : List (ValueId × ArgumentPlace × Ty)) (c : Context) (s : MachineState) (c' : Context)
    (s' : MachineState) : Prop where
  executes : Executes hw p c s c' s'
  stays : Stays frame c c'
  leads : Leads c c'
  poised : Poised hw p content frame c' s'
  retains : c.books.Retains c'.books
  there : ∀ {v place ty}, (v, place, ty) ∈ args →
    Conveys hw p content c' v ty (hw.view p s' ty place.position)
  held : ∀ {v r ty}, (v, .register r, ty) ∈ args → c'.registers.isLocked r = true
  locks : ∀ {q}, c.registers.isLocked q = true → c'.registers.isLocked q = true
  spares : ∀ {q}, c.registers.isLocked q = true → (∀ v ty, (v, .register q, ty) ∉ args) →
    Spares q c c'
  memory : ∀ {address}, (∀ v place ty, (v, place, ty) ∈ args → ¬place.Covers p ty.size address) →
    s'.memory address = s.memory address

theorem Places.nil (poised : Poised hw p content frame c s) :
    Places hw p content frame [] c s c s where
  executes := .of_code rfl
  stays := .refl c
  leads := .refl c
  poised := poised
  retains := .refl _
  there := nofun
  held := nofun
  locks := id
  spares _ _ := .of_code rfl
  memory _ := rfl

theorem Hardware.view_kept (register : ∀ r, place = .register r → s'.registers r = s.registers r)
    (memory : ∀ address, place.Covers p ty.size address → s'.memory address = s.memory address) :
    hw.view p s' ty place.position = hw.view p s ty place.position := by
  cases place with
  | register r => exact congrArg Content.word (register r rfl)
  | stack offset =>
    refine read_congr fun i small => memory _ ⟨offset, i, rfl, small, ?_⟩
    exact Placement.outgoing_add p offset i

theorem Places.kept (places : Places hw p content frame args c s c' s') {q : Register}
    (is_locked : c.registers.isLocked q = true) (absent : ∀ v ty, (v, .register q, ty) ∉ args) :
    s'.registers q = s.registers q := (places.spares is_locked absent).kept places.executes

theorem Places.cons {passed : Content}
    (delivers : Delivers hw p content frame c s place ty passed c1 s1)
    (conveys : Conveys hw p content c1 v ty passed) (leads : Leads c c1)
    (locked : c1.registers.locked = c.registers.locked) (leads2 : Leads c1 c2)
    (books : c2.books = c1.books) (code : c2.code = c1.code)
    (locks : ∀ {q}, c1.registers.isLocked q = true → c2.registers.isLocked q = true)
    (held : ∀ r, place = .register r → c2.registers.isLocked r = true)
    (apart : ∀ entry ∈ rest, ArgumentPlace.Unmixed p (place, ty) entry.2)
    (later : Places hw p content frame rest c2 s1 c' s') :
    Places hw p content frame ((v, place, ty) :: rest) c s c' s' where
  executes := delivers.executes.trans ((Executes.of_code code).trans later.executes)
  stays := delivers.stays.trans ((Stays.of_standing (by rw [books]) code).trans later.stays)
  leads := leads.trans (leads2.trans later.leads)
  poised := later.poised
  retains := delivers.retains.trans (books ▸ later.retains)
  there {w spot ty'} member := by
    rcases mem_cons.mp member with same | member
    · cases same
      have kept : hw.view p s' ty place.position = passed := by
        rw [← delivers.there]
        refine view_kept (fun r is_register => ?_) fun address covered => ?_
        · refine later.kept (held r is_register) fun w ty' member => ?_
          exact (apart _ member).1 r is_register rfl
        · refine later.memory fun w spot ty' member => ?_
          exact (apart _ member).2 address covered
      rw [kept]
      exact (conveys.after (leads2.trans later.leads) (books ▸ later.retains (v := v)))
    · exact later.there member
  held {w r ty'} member := by
    rcases mem_cons.mp member with same | member
    · cases same
      exact later.locks (held r rfl)
    · exact later.held member
  locks is_locked := later.locks (locks (by rwa [RegisterFile.isLocked, locked]))
  spares {q} is_locked absent := by
    have still : c1.registers.isLocked q = true := by rwa [RegisterFile.isLocked, locked]
    have elsewhere : place ≠ .register q := by
      rintro rfl
      exact absent v ty mem_cons_self
    have rest_spares : Spares q c2 c' :=
      later.spares (locks still) fun w ty' member => absent w ty' (mem_cons_of_mem _ member)
    exact (delivers.spares is_locked elsewhere).trans ((Spares.of_code code).trans rest_spares)
  memory {address} outside := by
    rw [later.memory fun w spot ty' member => outside w spot ty' (mem_cons_of_mem _ member)]
    exact delivers.memory (outside v place ty mem_cons_self)

structure Prepared (hw : Hardware) (content : ValueId → Content) (frame : FrameId) (bound : Nat)
    (c : Context) (v : ValueId) (place : ArgumentPlace) (ty : Ty) : Prop where
  passable : Passable hw content frame c v ty
  regular : ty.Regular
  small : ty.size < 2 ^ 64
  suits : place.Suits bound ty

theorem Prepared.after (prepared : Prepared hw content frame bound c v place ty)
    (leads : Leads c c') (stays : Stays frame c c') :
    Prepared hw content frame bound c' v place ty :=
  { prepared with passable := prepared.passable.after leads stays }

theorem placeArguments_places {next : Gen α} (poised : Poised hw p content frame c s)
    (prepared : ∀ v place ty, (v, place, ty) ∈ args → Prepared hw content frame bound c v place ty)
    (apart : args.Pairwise fun a b => ArgumentPlace.Unmixed p a.2 b.2)
    (walks : ∀ {c}, Discipline.free.Walks c next) (clears : p.Clears c'.extent bound)
    (separate : p.Separates c'.extent) (run : Runs (placeArguments next args) c a c') :
    ∃ c1 s1 c2, Places hw p content frame args c s c1 s1 ∧ Runs next c1 a c2 ∧ c2.Relocks c' := by
  induction args generalizing c s c' with
  | nil => exact ⟨c, s, c', .nil poised, run, ⟨_, rfl⟩⟩
  | cons entry rest ih =>
    obtain ⟨v, place, ty⟩ := entry
    obtain ⟨first, others⟩ := pairwise_cons.mp apart
    have ready := prepared v place ty mem_cons_self
    have ahead (w : ValueId) (spot : ArgumentPlace) (ty' : Ty) (member : (w, spot, ty') ∈ rest) :=
      prepared w spot ty' (mem_cons_of_mem _ member)
    -- The rest is placed in a context that differs from the one after the copy only in its locks
    -- and in the uses to come.
    have step {c1 c2 c3 : Context} (copied : Runs (copyConverted v place.position ty) c () c1)
        (leads2 : Leads c1 c2) (books : c2.books = c1.books) (code : c2.code = c1.code)
        (locks : ∀ {q}, c1.registers.isLocked q = true → c2.registers.isLocked q = true)
        (held : ∀ r, place = .register r → c2.registers.isLocked r = true)
        (run : Runs (placeArguments next rest) c2 a c3) (relocks : c3.Relocks c') :
        ∃ c1 s1 c2, Places hw p content frame ((v, place, ty) :: rest) c s c1 s1 ∧ Runs next c1 a c2
          ∧ c2.Relocks c' := by
      have walked := (walks_copyConverted (D := .free) v place.position ty _ _ trivial copied).2
      have leads3 := (walks_placeArguments walks rest _ _ trivial run).2.1
      rw [relocks.extent] at clears separate
      have before := (leads2.trans leads3).extent
      obtain ⟨passed, s1, conveys, delivers⟩ :=
        copyConverted_delivers poised ready.passable ready.regular
        ready.suits ready.small (clears.mono before) (separate.mono before) copied
      have poised2 : Poised hw p content frame c2 s1 :=
        delivers.poised.step books leads2.currentFrame fun _ => rfl
      have stays2 : Stays frame c c2 := delivers.stays.trans (.of_standing (by rw [books]) code)
      obtain ⟨c4, s4, c5, places, ran, relocks'⟩ := ih poised2
        (fun w spot ty' member => (ahead w spot ty' member).after
          (walked.1.trans leads2) stays2) others
        clears separate run
      exact ⟨c4, s4, c5, .cons delivers conveys walked.1 walked.2 leads2 books code locks
        held first places, ran, relocks'.trans relocks⟩
    cases place with
    | stack offset =>
      simp only [placeArguments, runs_bind, runs_discard] at run
      obtain ⟨_, c1, copied, _, c2, ⟨left, consumed⟩, run⟩ := run
      have leads2 := of_walks (walks_consume v) consumed
      obtain ⟨_, _, _, rfl⟩ := runs_consume consumed
      exact step copied leads2 (c1.books_consume v left) rfl id (by rintro _ ⟨⟩) run ⟨_, rfl⟩
    | register r =>
      simp only [placeArguments, runs_bind, runs_holding, runs_discard] at run
      obtain ⟨_, c1, copied, c3, ⟨_, c2, ⟨left, consumed⟩, run⟩, rfl⟩ := run
      have leads2 := of_walks (walks_consume v) consumed
      obtain ⟨_, _, _, rfl⟩ := runs_consume consumed
      refine step copied ((Leads.withLock c1 r true).trans leads2)
        ?_ rfl (RegisterFile.isLocked_lock r) ?_
        run (c3.relocks_withLock _ _)
      · exact ((c1.withLock r true).books_consume v left).trans (by simp)
      · rintro _ ⟨⟩
        exact RegisterFile.isLocked_lock_self _ ready.suits.2

theorem Tracks.grow {b : Books} {extent : Area → Nat} (tracks : Tracks hw p content b s)
    (larger : ∀ area, b.extent area ≤ extent area) :
    Tracks hw p content (b.withExtent extent) s where
  held := tracks.held
  owned := tracks.owned
  canonical := tracks.canonical
  located standing owns := by
    obtain ⟨cell, is_cell, inside⟩ := tracks.located standing owns
    exact ⟨cell, is_cell, inside.trans (larger _)⟩
  apart := tracks.apart
  current := tracks.current

/-- The slot is part of the frame after, but not before. -/
structure Reserves (frame : FrameId) (size : Nat) (c : Context) (slot : StackSlot) (c' : Context) :
    Prop where
  base : slot.base = .frame frame
  beyond : c.extent (.frame frame) ≤ slot.offset
  inside : slot.offset + max size 1 ≤ c'.extent (.frame frame)

theorem Reserves.mono {slot : StackSlot} (reserves : Reserves frame size c1 slot c2)
    (before : ∀ area, c.extent area ≤ c1.extent area)
    (after : ∀ area, c2.extent area ≤ c'.extent area) : Reserves frame size c slot c' :=
  ⟨reserves.base, (before _).trans reserves.beyond, reserves.inside.trans (after _)⟩

theorem reserveBuffer_delivers (poised : Poised hw p content frame c s)
    (in_memory : layout.result = .memory) (header : Convention.returnPointerOffset + 8 ≤ bound)
    (clears : p.Clears c'.extent bound) (run : Runs (reserveBuffer sig layout) c buffer c') :
    ∃ slot s', buffer = some slot ∧ Reserves frame sig.result.size c slot c'
      ∧ Delivers hw p content frame c s (.stack Convention.returnPointerOffset) .u64
      (.word (p.slot slot)) c' s' := by
  simp only [reserveBuffer, in_memory, runs_bind, runs_emit, runs_pure] at run
  obtain ⟨slot, c1, allocated, r, c2, obtained, _, _, rfl, _, _, rfl, rfl, rfl⟩ := run
  have hands := runs_allocateSlot allocated
  have registers : c1.registers = c.registers := by cases hands; rfl
  have current : c1.currentFrame = c.currentFrame := by cases hands; rfl
  have keeps : slot.KeepsTo frame := hands.keepsTo poised.current
  have reserves : Reserves frame sig.result.size c slot c1 := by
    obtain ⟨cell, is_cell, beyond, inside⟩ := hands.cell
    cases hands with
    | slot known =>
      obtain rfl := Option.mem_unique known poised.current
      cases is_cell
      exact ⟨rfl, beyond, inside⟩
  have poised1 : Poised hw p content frame c1 s := by
    refine ⟨?_, fun q => registers ▸ poised.vacant q, current.trans poised.current⟩
    rw [hands.books]
    exact poised.tracks.grow hands.extent_le
  have retains : c.books.Retains c1.books := by
    rw [hands.books]
    exact fun _ _ _ standing owns => ⟨_, standing, owns⟩
  have stays : Stays frame c c1 := .of_standing (by rw [hands.books]; rfl) hands.code
  obtain ⟨rfl, bank, _, unlocked⟩ := obtainRegister_vacant poised1.vacant obtained
  have pointed : Moves (passScene hw p content frame c2) (some r)
      (fun s t => t = s.set r (p.slot slot)) c2
      (c2.pushed (.leaStack r slot)) := by
    refine (Moves.refl c2).push _ (by simp [Instr.dest?]) (by rintro _ _ ⟨⟩; exact keeps) ?_
    rintro s _ _ rfl
    exact ⟨_, rfl, rfl⟩
  have moves : Moves (passScene hw p content frame c2) none (hw.Placed p .u64
      (.stack (.outgoing Convention.returnPointerOffset)) (.word (p.slot slot))) c2
        ((c2.pushed (.leaStack r slot)).pushed
        (.storeStack r (.outgoing Convention.returnPointerOffset) 8)) := by
    refine (pointed.through (poised1.vacant r) unlocked).push _ (by simp [Instr.dest?])
      (ArgumentPlace.within (.stack Convention.returnPointerOffset)) ?_
    rintro s _ _ ⟨rfl, at_slot⟩
    refine ⟨_, rfl, placed_stored (by decide) bank (fun register => by cases register) fun _ => ?_⟩
    rw [at_slot]
    exact narrow_word _ _
  obtain ⟨s', delivers⟩ :
    ∃ s', Delivers hw p content frame c2 s (.stack Convention.returnPointerOffset) .u64 _ _ s' :=
    moves.delivers poised1 clears header
  exact ⟨slot, s', rfl, ⟨reserves.base, reserves.beyond, reserves.inside⟩,
    delivers.after hands.code stays (by rw [registers]) retains⟩

theorem reserveBuffer_poised (poised : Poised hw p content frame c s)
    (header : layout.result = .memory → Convention.returnPointerOffset + 8 ≤ bound)
    (clears : p.Clears c'.extent bound) (run : Runs (reserveBuffer sig layout) c buffer c') :
    ∃ s', Executes hw p c s c' s' ∧ Stays frame c c' ∧ Poised hw p content frame c' s'
      ∧ (layout.result = .memory → ∃ slot, buffer = some slot
        ∧ Reserves frame sig.result.size c slot c'
        ∧ hw.read .u64 s'.memory (p.slot (.outgoing Convention.returnPointerOffset)) = .word
        (p.slot slot)) := by
  by_cases in_memory : layout.result = .memory
  · obtain ⟨slot, s', is_slot, reserves, delivers⟩ :=
      reserveBuffer_delivers poised in_memory (header in_memory) clears run
    exact ⟨s', delivers.executes, delivers.stays, delivers.poised,
      fun _ => ⟨slot, is_slot, reserves, delivers.there⟩⟩
  · have unchanged : c' = c := by
      unfold reserveBuffer at run
      split at run
      · next is_memory => exact (in_memory is_memory).elim
      · exact (runs_pure.mp run).2
    subst unchanged
    exact ⟨s, .of_code rfl, .refl _, poised, fun is_memory => (in_memory is_memory).elim⟩

def Callee.Takes (content : ValueId → Content) (start : Option LabelId)
    (s : MachineState) (i : Instr) : Callee → Prop
  | .direct _ => ∃ label, start = some label ∧ i = .call label
  | .indirect ptr => ∃ r, i = .callPtr r ∧ content ptr = .word (s.registers r)

theorem emitCall_takes (poised : Poised hw p content frame c s)
    (supplied : ∀ ptr, callee = .indirect ptr → Supplied hw content frame c ptr)
    (run : Runs (emitCall start callee) c u c') :
    ∃ i c1 s', Executes hw p c s c1 s' ∧ Stays frame c c1 ∧ Leads c c1
    ∧ Poised hw p content frame c1 s'
      ∧ callee.Takes content start s' i ∧ s'.memory = s.memory
      ∧ (∀ {q}, c.registers.isLocked q = true → s'.registers q = s.registers q)
      ∧ c1.books = c.books ∧ c'.books = c1.books ∧ c'.code = c1.code.push i := by
  cases callee with
  | direct function =>
    cases start with
    | none => simp [emitCall] at run
    | some label =>
      simp only [emitCall, runs_bind, runs_emit, runs_record] at run
      obtain ⟨_, _, rfl, rfl⟩ := run
      exact ⟨.call label, c, s, .of_code rfl, .refl c, .refl c, poised, ⟨label, rfl, rfl⟩, rfl,
        fun _ => rfl, rfl, rfl, rfl⟩
  | indirect ptr =>
    have block : Runs (do
        let r ← copyToRegister ptr
        discard (consume ptr)
        emit (.callPtr r)
        record .addCall) c u c' := by
      cases start <;> exact run
    simp only [runs_bind, runs_discard, runs_emit, runs_record] at block
    obtain ⟨r, c1, copied, _, c2, ⟨left, consumed⟩, _, _, rfl, rfl⟩ := block
    have leads := of_walks (walks_copyToRegister ptr) copied
    obtain ⟨value, found, holding⟩ := runs_valueOf_bind.mp copied
    have loading := poised.holdingRegisterOf holding
    simp only [runs_bind, runs_pure] at loading
    obtain ⟨q, c0, obtained, _, c3, loaded, rfl, rfl⟩ := loading
    obtain ⟨rfl, bank, _, unlocked⟩ := obtainRegister_vacant poised.vacant obtained
    have supplies := poised.supplies (supplied ptr rfl) found
    obtain ⟨w, is_word, _⟩ := supplies.word poised.ready (isLoadable_of_loadValue found loaded)
    have moves := loadValue_moves found is_word
      (fun bits is_bits => Content.word.inj (is_word.symm.trans (supplies.constant is_bits).1))
        supplies.knows
      supplies.calm bank loaded
    obtain ⟨s1, _, ran, rfl, _, kept, saving⟩ := moves.carries poised.ready (.inl trivial)
    obtain ⟨books, stays, _⟩ := moves.tame trivial
    have memory := saving.memory_eq books poised.tracks
    obtain ⟨_, _, _, rfl⟩ := runs_consume consumed
    refine ⟨.callPtr r, c1, _, ran, stays frame rfl, leads,
      poised.step books leads.currentFrame fun _ =>
      congrFun memory _, ⟨r, rfl, ?_⟩, memory, fun {q} is_locked => ?_, books,
      c1.books_consume ptr left, rfl⟩
    · rw [MachineState.registers_set, if_pos rfl]
      exact is_word
    · have other : q ≠ r := by
        rintro rfl
        simp [unlocked] at is_locked
      rw [MachineState.registers_set, if_neg other, kept is_locked]

theorem dropAll_vacant {strict : Bool} (vacant : c.Vacant) (run : Runs (dropAll strict) c u c') :
    c' = c := by
  simp only [dropAll, runs_bind, runs_get, vacant.allOccupied, runs_forIn_nil, runs_pure, and_assoc,
    exists_and_left, exists_eq_left] at run
  obtain ⟨_, _, same⟩ := run
  exact same

theorem bindResult_result {result : ValueId} (run : Runs (bindResult layout buffer result) c u c') :
    Leads c c' ∧ (∃ remarks, c'.code.toList = c.code.toList ++ remarks)
      ∧ ∀ slot, layout.result = .memory → buffer = some slot →
        ∃ value, c'.values.get? result = some value ∧ value.position = some (.stack slot) := by
  unfold bindResult at run
  split at run
  · next r is_register =>
    have leads := of_walks (walks_bindRegister trivial) run
    obtain ⟨value, found, _, _, range, _, remarks, _, rfl⟩ := runs_bindRegister run
    refine ⟨leads, ⟨remarks, by simp⟩, fun slot in_memory => ?_⟩
    cases is_register.symm.trans in_memory
  · next slot in_memory =>
    obtain ⟨⟨value, found⟩, rfl⟩ := runs_setPosition.mp run
    refine ⟨.modify c result fun _ => ⟨rfl, rfl, id, id⟩, ⟨[], by simp⟩, ?_⟩
    rintro _ _ ⟨⟩
    exact ⟨_, by rw [ValueStore.get?_modify, if_pos rfl, found, Option.map_some], rfl⟩
  · exact (runs_inconsistent.mp run).elim

theorem endCall_result (run : Runs (match result with
      | none => pure ()
      | some v => bindResult layout buffer v) c u c') :
    Leads c c' ∧ (∃ remarks, c'.code.toList = c.code.toList ++ remarks)
      ∧ ∀ slot v, layout.result = .memory → buffer = some slot → result = some v →
        ∃ value, c'.values.get? v = some value ∧ value.position = some (.stack slot) := by
  cases result with
  | none =>
    obtain ⟨_, rfl⟩ := runs_pure.mp run
    exact ⟨.refl _, ⟨[], by simp⟩, nofun⟩
  | some v =>
    obtain ⟨leads, remarks, pos⟩ := bindResult_result run
    refine ⟨leads, remarks, ?_⟩
    rintro slot _ in_memory is_slot ⟨⟩
    exact pos slot in_memory is_slot

theorem ArgumentPlace.Unmixed.symm {a b : ArgumentPlace × Ty} (unmixed : Unmixed p a b) :
    Unmixed p b a :=
  ⟨fun r is_register same => unmixed.1 r same is_register,
    fun address covered covers => unmixed.2 address covers covered⟩

theorem mem_zip_of_getElem? {b : β} {c : γ}
    (at_a : as[i]? = some a) (at_b : bs[i]? = some b) (at_c : cs[i]? = some c) :
    (a, b, c) ∈ as.zip (bs.zip cs) :=
  mem_iff_getElem?.mpr
    ⟨i, getElem?_zip_eq_some.mpr ⟨at_a, getElem?_zip_eq_some.mpr ⟨at_b, at_c⟩⟩⟩

theorem mem_zip_zip {b : β} {c : γ}
    (member : (a, b, c) ∈ as.zip (bs.zip cs)) : (a, c) ∈ as.zip cs ∧ (c, b) ∈ cs.zip bs := by
  obtain ⟨i, at_i⟩ := mem_iff_getElem?.mp member
  rw [getElem?_zip_eq_some, getElem?_zip_eq_some] at at_i
  obtain ⟨at_a, at_b, at_c⟩ := at_i
  exact ⟨mem_iff_getElem?.mpr ⟨i, getElem?_zip_eq_some.mpr ⟨at_a, at_c⟩⟩,
    mem_iff_getElem?.mpr ⟨i, getElem?_zip_eq_some.mpr ⟨at_c, at_b⟩⟩⟩

theorem CallLayout.headerSize_of_memory (in_memory : (ofSignature sig).result = .memory) :
    (ofSignature sig).headerSize = Convention.returnPointerOffset + 8 :=
  congrArg headerSizeFor in_memory

/-- Arguments can be passed: scalars fit registers, sizes have 32 bits, and the bytes beyond the
frame have addresses of their own. -/
structure Signature.Passes (sig : Signature) : Prop where
  regular : ∀ ty ∈ sig.params, ty.Regular
  small : ∀ ty ∈ sig.params, ty.size < 2 ^ 32
  bounded : (ofSignature sig).argumentsEnd ≤ 2 ^ 64

section
variable (passes : sig.Passes)
include passes

theorem Signature.Passes.size_le_span (param : ty ∈ sig.params) : ty.size ≤ Convention.span ty := by
  have kept : Convention.passedSize ty = ty.size := Nat.mod_eq_of_lt (passes.small ty param)
  rw [Convention.span, kept]
  exact (le_max_left _ _).trans (le_alignUp _ (by decide))

section
variable (member : (ty, place) ∈ sig.params.zip (ofSignature sig).arguments)
include member

theorem Signature.Passes.offset_of_covers {address : Word}
    (covers : place.Covers p ty.size address) :
    ∃ offset i, place = .stack offset ∧ i < Convention.span ty
      ∧ address = p.outgoing + BitVec.ofNat 64 (offset + i) ∧ (ofSignature sig).headerSize ≤ offset
      ∧ offset + Convention.span ty ≤ (ofSignature sig).argumentsEnd := by
  obtain ⟨offset, i, rfl, below, is_address⟩ := covers
  obtain ⟨behind, inside, _⟩ := stack_argument member
  have fits := passes.size_le_span (of_mem_zip member).1
  exact ⟨offset, i, rfl, by omega, is_address, behind, inside⟩

theorem Signature.Passes.not_covers_header (below : n < (ofSignature sig).headerSize) :
    ¬place.Covers p ty.size (p.outgoing + BitVec.ofNat 64 n) := by
  intro covers
  obtain ⟨offset, i, rfl, inside, same, behind, ends⟩ := passes.offset_of_covers member covers
  have bounded := passes.bounded
  have offsets : n = offset + i := Word.offset_eq_of_add_eq (by omega) (by omega) same
  omega

end

theorem Signature.Passes.unmixed {a b : Ty × ArgumentPlace} (apart : Convention.Apart a b)
    (first : a ∈ sig.params.zip (ofSignature sig).arguments)
    (second : b ∈ sig.params.zip (ofSignature sig).arguments) :
    ArgumentPlace.Unmixed p (a.2, a.1) (b.2, b.1) := by
  obtain ⟨ty, place⟩ := a
  obtain ⟨ty', place'⟩ := b
  constructor
  · rintro r rfl rfl
    exact apart rfl
  · rintro address covers covers'
    obtain ⟨offset, i, rfl, below, rfl, _, inside⟩ := passes.offset_of_covers first covers
    obtain ⟨next, j, rfl, below', same, _, inside'⟩ := passes.offset_of_covers second covers'
    have bounded := passes.bounded
    have offsets : offset + i = next + j := Word.offset_eq_of_add_eq (by omega) (by omega) same
    simp only [Convention.Apart] at apart
    omega

theorem Signature.Passes.placed_unmixed (args : List ValueId) :
    (args.zip ((ofSignature sig).arguments.zip sig.params)).Pairwise
      fun a b => ArgumentPlace.Unmixed p a.2 b.2 := by
  have apart := arguments_apart sig
  rw [pairwise_iff_getElem] at apart ⊢
  intro i j hi hj less
  simp only [length_zip, lt_min_iff] at hi hj
  have before := apart i j (by simp; omega) (by simp; omega) less
  simp only [getElem_zip] at before ⊢
  exact passes.unmixed before (mem_iff_getElem.mpr ⟨i, by simp; omega, by simp⟩)
    (mem_iff_getElem.mpr ⟨j, by simp; omega, by simp⟩)

theorem Signature.Passes.suits (member : (ty, place) ∈ sig.params.zip (ofSignature sig).arguments) :
    place.Suits (ofSignature sig).argumentsEnd ty := by
  cases place with
  | register r =>
    obtain ⟨_, bank, few⟩ := register_argument member
    refine ⟨bank, decide_eq_true (few.trans ?_)⟩
    decide
  | stack offset =>
    obtain ⟨_, inside, _⟩ := stack_argument member
    have fits := passes.size_le_span (of_mem_zip member).1
    simp only [ArgumentPlace.Suits]
    omega

theorem Signature.Passes.prepared {args : List ValueId}
    (passable : ∀ {v ty}, (v, ty) ∈ args.zip sig.params → Passable hw content frame c v ty)
    (listed : (v, place, ty) ∈ args.zip ((ofSignature sig).arguments.zip sig.params)) :
    Prepared hw content frame (ofSignature sig).argumentsEnd c v place ty := by
  obtain ⟨pair, placed⟩ := mem_zip_zip listed
  have param := (of_mem_zip placed).1
  exact ⟨passable pair, passes.regular ty param, (passes.small ty param).trans (by decide),
    passes.suits placed⟩

end

/-- At the instruction `i` the machine is about to enter the callee. Each place holds what its
parameter is to receive, and the header names the buffer in which the caller expects a result
that comes back in memory. -/
structure Rings (hw : Hardware) (p : Placement) (content : ValueId → Content) (frame : FrameId)
    (sig : Signature) (args : List ValueId) (result : Option ValueId) (c : Context)
    (s : MachineState) (c1 : Context) (s1 : MachineState) (i : Instr) (c' : Context) : Prop where
  executes : Executes hw p c s c1 s1
  stays : Stays frame c c1
  leads : Leads c c1
  poised : Poised hw p content frame c1 s1
  code : ∃ after, c'.code.toList = c1.code.toList ++ i :: after
  arity : args.length = sig.params.length
  there : ∀ {v place ty},
    (v, place, ty) ∈ args.zip ((ofSignature sig).arguments.zip sig.params) →
      Conveys hw p content c1 v ty (hw.view p s1 ty place.position)
  buffer : (ofSignature sig).result = .memory → ∃ slot,
    Reserves frame sig.result.size c slot c1
      ∧ hw.read .u64 s1.memory (p.slot (.outgoing Convention.returnPointerOffset))
        = .word (p.slot slot)
      ∧ ∀ v, result = some v →
        ∃ value, c'.values.get? v = some value ∧ value.position = some (.stack slot)

theorem lowerInternalCall_rings {args : List ValueId} (tracks : Tracks hw p content c.books s)
    (housed : c.Housed frame) (passes : sig.Passes)
    (passable : ∀ {v ty}, (v, ty) ∈ args.zip sig.params → Passable hw content frame c v ty)
    (supplied : ∀ ptr, callee = .indirect ptr → Supplied hw content frame c ptr)
    (clears : p.Clears c'.extent (ofSignature sig).argumentsEnd) (separate : p.Separates c'.extent)
    (run : Runs (lowerInternalCall sig start callee args result) c u c') :
    ∃ i c1 s1, Rings hw p content frame sig args result c s c1 s1 i c'
      ∧ callee.Takes content start s1 i := by
  have header (in_memory : (ofSignature sig).result = .memory) :
      Convention.returnPointerOffset + 8 ≤ (ofSignature sig).argumentsEnd :=
    (headerSize_of_memory in_memory).ge.trans (headerSize_le sig)
  unfold lowerInternalCall at run
  obtain ⟨_, run⟩ | ⟨arity, run⟩ := runs_ite.mp run
  · simp at run
  have arity : args.length = sig.params.length := by
    simpa [length_arguments] using arity
  simp only [runs_bind] at run
  obtain ⟨_, c0, vacated, buffer, c1, reserved, _, c2, placed, _, c3, dropped, ended⟩ := run
  have leads0 := of_walks walks_vacateAll vacated
  have leads1 := of_walks (walks_reserveBuffer _ _) reserved
  have leads2 := of_walks (walks_placeArguments (walks_emitCall start callee) _) placed
  obtain ⟨leads3, ⟨remarks, ending⟩, pos⟩ := endCall_result ended
  have later := (of_walks (walks_dropAll false) dropped).trans leads3
  -- Registers are emptied, and the buffer is announced.
  obtain ⟨room, vacant⟩ : MakesRoom hw p (fun _ => True) id c c0 ∧ _ := vacateAll_room vacated
  obtain ⟨s0, executes0, tracks0, _⟩ := room.carries tracks
    (separate.mono (leads1.trans (leads2.trans later)).extent)
  obtain ⟨housed0, stays0⟩ := vacateAll_resides vacated housed
  have poised0 : Poised hw p content frame c0 s0 := ⟨tracks0, vacant, housed0.current⟩
  obtain ⟨s1, executes1, stays1, poised1, announced⟩ := reserveBuffer_poised poised0 header
    (clears.mono (leads2.trans later).extent) reserved
  have before := leads0.trans leads1
  have stays := stays0.trans stays1
  -- The arguments are placed, the last one first.
  have unmixed : Pairwise (fun a b => ArgumentPlace.Unmixed p a.2 b.2)
      (args.zip ((ofSignature sig).arguments.zip sig.params)).reverse :=
    pairwise_reverse.mpr ((passes.placed_unmixed args).imp ArgumentPlace.Unmixed.symm)
  obtain ⟨c4, s4, c5, places, called, relocks⟩ := placeArguments_places poised1
    (fun v place ty listed => (passes.prepared passable (mem_reverse.mp listed)).after before stays)
    unmixed (walks_emitCall start callee) (clears.mono later.extent)
    (separate.mono later.extent) placed
  -- The call is written while the registers of the arguments are locked.
  obtain ⟨i, c6, s6, executes6, stays6, leads6, poised6, takes, memory, kept,
    books, books', code⟩ :=
    emitCall_takes places.poised (fun ptr is_indirect => (supplied ptr is_indirect).after
      (before.trans places.leads) (stays.trans places.stays)) called
  have empty : c2.Vacant := fun r =>
    (congrFun (congrArg Books.occupant (relocks.books.trans books')) r).trans (poised6.vacant r)
  obtain rfl := dropAll_vacant empty dropped
  refine ⟨i, c6, s6, ?_, takes⟩
  constructor
  case executes => exact executes0.trans (executes1.trans (places.executes.trans executes6))
  case stays => exact stays.trans (places.stays.trans stays6)
  case leads => exact before.trans (places.leads.trans leads6)
  case poised => exact poised6
  case code => exact ⟨remarks, by rw [ending, relocks.code, code]; simp⟩
  case arity => exact arity
  case there =>
    intro v place ty listed
    have same : hw.view p s6 ty place.position = hw.view p s4 ty place.position := by
      refine view_kept (fun r is_register => kept ?_) fun address _ => by rw [memory]
      subst is_register
      exact places.held (mem_reverse.mpr listed)
    rw [same]
    refine (places.there (mem_reverse.mpr listed)).after leads6 ?_
    rw [books]
    exact fun _ _ standing owns => ⟨_, standing, owns⟩
  case buffer =>
    intro in_memory
    obtain ⟨slot, is_slot, reserves, read⟩ := announced in_memory
    refine ⟨slot, reserves.mono leads0.extent (places.leads.trans leads6).extent, ?_,
      fun v => pos slot v in_memory is_slot⟩
    rw [memory, ← read]
    refine read_congr fun j below => places.memory fun v place ty listed => ?_
    rw [Placement.outgoing_add]
    refine passes.not_covers_header (mem_zip_zip (mem_reverse.mp listed)).2 ?_
    rw [headerSize_of_memory in_memory]
    exact Nat.add_lt_add_left below _

end

end RegisterBackend
