import RegisterBackend.Proofs.Calling
import RegisterBackend.Proofs.Elision
import RegisterBackend.Proofs.Linking

/-!
Entering a function. The callee finds at an offset in its frame what the caller left at the same
offset beyond its own, so its parameters are recorded where the caller put the arguments.
-/
namespace RegisterBackend

open Gen Discipline ValueStore Leads Processor RegisterFile Value CallLayout

variable {c c' : Context} {code : List Instr} {decl : Declaration} {f : FunctionId}
  {frame : FrameId} {hw : Hardware} {l : Link} {u : Unit} {v : ValueId} {value : Value}
  {functions : Array Declaration} {place : ArgumentPlace} {ty : Ty}

namespace Processor

/-- The machine at the first instruction of the callee. The address to return to is the first word
beyond the frame of the caller. -/
def called (q : Processor) (back : Word) (pc : Nat) : Processor where
  state := q.state.write q.sp (Word.bytes back)
  sp := q.sp + 8
  pc := pc

/-- One step into a function, at a label or through a register that holds the address of one. -/
inductive Calls (l : Link) (code : List Instr) (back : Word) (q : Processor) : Processor → Prop
  | label {target : LabelId} {pc : Nat} : code[q.pc]? = some (.call target) →
      labelIndex? code target = some pc → Calls l code back q (q.called back pc)
  | pointer {r : Register} {target : LabelId} {pc : Nat} : code[q.pc]? = some (.callPtr r) →
      q.state.registers r = l.codeBase + l.label target → labelIndex? code target = some pc →
      Calls l code back q (q.called back pc)

end Processor

/-- The stack pointer after the prologue of a function that was called at `sp`. -/
def Link.entered (l : Link) (sp : Word) (frame : FrameId) : Word := sp + 8 + l.amount (.enter frame)

theorem Link.frame_entered (l : Link) (sp : Word) (frame : FrameId) :
    (l.placement (l.entered sp frame)).frame frame = sp := by
  simp only [placement, entered, amount]
  ring

theorem Link.slot_eq_displacement {slot : StackSlot} {d : Int}
    (known : l.layout.displacement slot = .ok d) (sp : Word) :
    (l.placement sp).slot slot = sp + BitVec.ofInt 64 d := by
  obtain ⟨base, offset⟩ := slot
  cases base with
  | outgoing =>
    cases known
    exact congrArg (sp + ·) (BitVec.ofInt_natCast 64 offset).symm
  | frame id =>
    obtain ⟨size, is_size, rfl⟩ := Except.map_ok_iff.mp known
    simp only [Placement.slot, placement, frameSize_eq is_size, StackSlot.displacement]
    rw [Int.sub_eq_add_neg, BitVec.ofInt_add, BitVec.ofInt_neg, BitVec.ofInt_natCast,
      BitVec.ofInt_natCast]
    ring

theorem Link.slot_entered (l : Link) (sp : Word) (frame : FrameId) (offset : Nat) :
    (l.placement (l.entered sp frame)).slot (.inFrame frame offset) = (l.placement sp).slot
    (.outgoing offset) := by
  simp only [Placement.slot, StackSlot.inFrame, StackSlot.outgoing, l.frame_entered]
  rfl

theorem Link.entered_of_still (still : l.layout.stackAmount (.enter frame) = .ok 0)
    (sp : Word) : l.entered sp frame = sp + 8 := by
  rw [entered, amount_eq_zero still, add_zero]

def ArgumentPlace.received (frame : FrameId) : ArgumentPlace → Position
  | .register r => .register r
  | .stack offset => .stack (.inFrame frame offset)

theorem Hardware.view_received {p : Placement} {sp back : Word} {s : MachineState} (frame : FrameId)
    (outgoing : p.outgoing = sp)
    (behind : ∀ offset, place = .stack offset → 8 ≤ offset ∧ offset + ty.size ≤ 2 ^ 64) :
    hw.view (l.placement (l.entered sp frame)) (s.write sp (Word.bytes back)) ty
    (place.received frame)
      = hw.view p s ty place.position := by
  cases place with
  | register r => rfl
  | stack offset =>
    obtain ⟨above, inside⟩ := behind offset rfl
    have same : (l.placement (l.entered sp frame)).slot (.inFrame frame offset)
        = p.slot (.outgoing offset) := by
      rw [l.slot_entered, Placement.slot, Placement.slot, outgoing]
      rfl
    show hw.read ty _ ((l.placement (l.entered sp frame)).slot (.inFrame frame offset))
      = hw.read ty _ _
    rw [same]
    refine Hardware.read_congr fun i small => Memory.write_of_apart _ fun j below meets => ?_
    rw [length_wordBytes] at below
    rw [Placement.outgoing_add, outgoing] at meets
    have offsets : offset + i = j := Word.offset_eq_of_add_eq (by omega) (by omega) meets
    omega

section
variable {w : ValueId} {r q : Register} {pairs : List (ValueId × ArgumentPlace)}

def Context.SeatedIn (c : Context) (v : ValueId) (r : Register) : Prop :=
  (∃ value, c.values.get? v = some value ∧ value.position = some (.register r))
    ∧ c.registers.occupant? r = some v

theorem bindRegister_seated (run : Runs (bindRegister r v) c u c') : c'.SeatedIn v r := by
  obtain ⟨value, found, _, _, range, _, remarks, _, rfl⟩ := runs_bindRegister run
  have position := map_get?_touch
    (c.values.modify v ({ · with position := some (.register r) })) v v
      Value.position fun _ _ => rfl
  rw [get?_modify, if_pos rfl, found, Option.map_some, Option.map_some] at position
  obtain ⟨value', found', at_r⟩ := Option.map_eq_some_iff.mp position
  exact ⟨⟨value', found', at_r⟩, by simp [occupant?_setOccupant _ _ _ range]⟩

namespace Context.SeatedIn

theorem bindRegister (seated : c.SeatedIn v r) (run : Runs (bindRegister q w) c u c') :
    c'.SeatedIn v r := by
  obtain ⟨⟨value, found, at_r⟩, occupied⟩ := seated
  obtain ⟨other, found', _, unseated, range, empty, remarks, _, rfl⟩ := runs_bindRegister run
  have different : v ≠ w := by
    rintro rfl
    obtain rfl := Option.mem_unique found found'
    simp [Value.register?, at_r, Position.register?] at unseated
  have apart : r ≠ q := by
    rintro rfl
    cases occupied.symm.trans empty
  have position := map_get?_touch
    (c.values.modify w ({ · with position := some (.register q) })) w v
      Value.position fun _ _ => rfl
  rw [get?_modify, if_neg different, found, Option.map_some] at position
  obtain ⟨value', found', same⟩ := Option.map_eq_some_iff.mp position
  refine ⟨⟨value', found', same.trans at_r⟩, ?_⟩
  rw [occupant?_setOccupant _ _ _ range, if_neg apart]
  exact occupied

theorem markDirty (seated : c.SeatedIn v r) (run : Runs (markDirty w) c u c') :
    c'.SeatedIn v r := by
  obtain ⟨⟨value, found, at_r⟩, occupied⟩ := seated
  simp only [Gen.markDirty, runs_bind, runs_updateValue, runs_touch] at run
  obtain ⟨_, _, ⟨_, rfl⟩, _, rfl⟩ := run
  have position := map_get?_touch (c.values.modify w (·.setDirty true)) w v Value.position
    fun _ _ => rfl
  have kept (value : Value) : (value.setDirty true).position = value.position :=
    congrArg Standing.position (value.standing_setDirty true)
  rw [map_get?_modify _ w v _ kept, found, Option.map_some] at position
  obtain ⟨value', found', same⟩ := Option.map_eq_some_iff.mp position
  exact ⟨⟨value', found', same.trans at_r⟩, occupied⟩

theorem bindParameters (seated : c.SeatedIn v r) (run : Runs (bindParameters pairs) c u c') :
    c'.SeatedIn v r := by
  induction pairs generalizing c with
  | nil =>
    obtain ⟨_, rfl⟩ := runs_pure.mp run
    exact seated
  | cons pair rest ih =>
    obtain ⟨param, place⟩ := pair
    cases place with
    | stack offset => exact ih seated run
    | register q =>
      simp only [Gen.bindParameters, runs_bind] at run
      obtain ⟨_, c1, bound, _, c2, marked, run⟩ := run
      exact ih ((seated.bindRegister bound).markDirty marked) run

end Context.SeatedIn

theorem bindParameters_seated (listed : (v, .register r) ∈ pairs)
    (run : Runs (bindParameters pairs) c u c') : c'.SeatedIn v r := by
  induction pairs generalizing c with
  | nil => cases listed
  | cons pair rest ih =>
    obtain ⟨param, place⟩ := pair
    cases place with
    | stack offset =>
      obtain same | listed := List.mem_cons.mp listed
      · cases same
      · exact ih listed run
    | register q =>
      simp only [bindParameters, runs_bind] at run
      obtain ⟨_, c1, bound, _, c2, marked, run⟩ := run
      obtain same | listed := List.mem_cons.mp listed
      · cases same
        exact ((bindRegister_seated bound).markDirty marked).bindParameters run
      · exact ih listed run

theorem bindParameters_remarks (run : Runs (bindParameters pairs) c u c') :
    ∃ remarks, (∀ i ∈ remarks, i.isRemark = true) ∧ c'.code.toList = c.code.toList ++ remarks := by
  induction pairs generalizing c with
  | nil =>
    obtain ⟨_, rfl⟩ := runs_pure.mp run
    exact ⟨[], by simp, by simp⟩
  | cons pair rest ih =>
    obtain ⟨param, place⟩ := pair
    cases place with
    | stack offset => exact ih run
    | register q =>
      simp only [bindParameters, markDirty, runs_bind, runs_updateValue, runs_touch] at run
      obtain ⟨_, c1, bound, _, _, ⟨_, _, ⟨_, rfl⟩, _, rfl⟩, run⟩ := run
      obtain ⟨_, _, _, _, _, _, remarks, only, rfl⟩ := runs_bindRegister bound
      obtain ⟨rest, only', code⟩ := ih run
      refine ⟨remarks ++ rest, fun i member => ?_, by simp [code]⟩
      exact (List.mem_append.mp member).elim (fun early => (only i early).remark) (only' i)

section
variable (run : Runs (lowerPrologue decl frame) c u c')
include run

theorem lowerPrologue_code :
    ∃ front after, (∀ i ∈ front, i.isRemark = true) ∧ (∀ i ∈ after, i.isRemark = true)
      ∧ c'.code.toList = c.code.toList ++ ((.label decl.start :: front) ++ .stackAdjust
        (.enter frame) :: after) := by
  simp only [lowerPrologue, runs_bind, runs_emit] at run
  obtain ⟨_, _, rfl, _, c1, commented, _, _, rfl, bound⟩ := run
  obtain ⟨front, only, rfl⟩ := runs_comment commented
  obtain ⟨after, only', code⟩ := bindParameters_remarks bound
  exact ⟨front, after, fun i member => (only i member).remark, only',
    by simp [code, Context.pushed, Context.appended]⟩

theorem lowerPrologue_seated
    (listed : (v, .register r) ∈ decl.params.zip decl.layout.arguments) : c'.SeatedIn v r := by
  simp only [lowerPrologue, runs_bind, runs_emit] at run
  obtain ⟨_, _, rfl, _, c1, commented, _, _, rfl, bound⟩ := run
  exact bindParameters_seated listed bound

theorem lowerPrologue_labelled (written : c'.code.toList <+: code)
    (unique : (code.filterMap Instr.label?).count decl.start ≤ 1) :
    labelIndex? code decl.start = some c.code.size := by
  obtain ⟨front, after, _, _, prologue⟩ := lowerPrologue_code run
  obtain ⟨rest, rfl⟩ := written
  rw [prologue] at unique ⊢
  have none_before : c.code.toList.findIdx? (· == .label decl.start) = none := by
    refine List.findIdx?_eq_none_iff.mpr fun i member => beq_false_of_ne ?_
    rintro rfl
    have early : decl.start ∈ c.code.toList.filterMap Instr.label? :=
      List.mem_filterMap.mpr ⟨_, member, rfl⟩
    have := List.count_pos_iff.mpr early
    simp [List.filterMap_append, Instr.label?] at unique
    omega
  simp [labelIndex?, List.findIdx?_append, none_before, List.findIdx?_cons]

theorem lowerPrologue_reaches (written : c'.code.toList <+: code) (s : MachineState) (sp : Word) :
    Processor.Reaches hw l code ⟨s, sp, c.code.size⟩
    ⟨s, sp + l.amount (.enter frame), c'.code.size⟩ := by
  obtain ⟨front, after, only, only', prologue⟩ := lowerPrologue_code run
  obtain ⟨rest, is_code⟩ := written
  rw [prologue] at is_code
  have labelled : Instr.executeAll hw (l.placement sp) (.label decl.start :: front) s = some s :=
    Executes.executeAll_remarks only s
  have before : Processor.Reaches hw l code ⟨s, sp, c.code.toList.length⟩ _ :=
    reaches_executeAll (by simpa using is_code.symm) labelled
  have enter : Processor.Reaches hw l code
      ⟨s, sp, (c.code.toList ++ .label decl.start :: front).length⟩ _ :=
    reaches_stackAdjust (by simpa using is_code.symm) s sp
  have ending : Processor.Reaches hw l code ⟨s, sp + l.amount (.enter frame), (c.code.toList
      ++ Instr.label decl.start :: front ++ [Instr.stackAdjust (.enter frame)]).length⟩ _ :=
    reaches_executeAll (by simpa using is_code.symm) (Executes.executeAll_remarks only' s)
  have size := congrArg List.length prologue
  simp only [List.length_append, List.length_cons, List.length_nil, Array.length_toList]
    at before enter ending size
  have stop : c'.code.size = c.code.size + (front.length + 1) + (0 + 1) + after.length := by omega
  rw [stop]
  exact before.trans (enter.trans ending)

end

end

/-- The bookkeeping has the value in the register, or at home in the memory. -/
def Context.Records (c : Context) (v : ValueId) (ty : Ty) (place : Position) : Prop :=
  ∃ value, c.values.get? v = some value ∧ value.ty = ty ∧
    match place with
    | .register r => value.position = some (.register r) ∧ c.registers.occupant? r = some v
    | home => value.home? = some home

namespace Module
variable {m : Module}

theorem ages_lowerFunction {range : Nat × Nat}
    (run : Runs (lowerFunction functions decl) c range c') (found : c.values.get? v = some value) :
    ∃ value', c'.values.get? v = some value' ∧ value.Ages value' := by
  obtain ⟨frame, body, c1, c2, c3, c4, _, _, entered, lowered, retired, left, rfl⟩ :=
    runs_lowerFunction_steps run
  have first := of_walks (walks_lowerPrologue (fun _ => trivial)) entered
  have second :=
    of_walks (walks_lowerBody .free (fun _ _ _ _ => trivial) (fun _ => trivial)) lowered
  have third := of_walks (walks_ite (fun _ => walks_retireRegisters)
    (fun _ => walks_pure _)) retired
  have fourth := of_walks (walks_lowerEpilogue decl frame) left
  have leads := first.trans (second.trans (third.trans fourth))
  exact leads.values found

theorem Visits.ages {decls : List Declaration} (visits : m.Visits decls c)
    (found : m.values.get? v = some value) :
    ∃ value', c.values.get? v = some value' ∧ value.Ages value' := by
  induction visits with
  | entry run =>
    have leads := of_walks (walks_lowerEntry m.functions m.entry) run
    exact leads.values found
  | external _ _ ih => exact ih
  | function _ _ run ih =>
    obtain ⟨_, found', ages⟩ := ih
    obtain ⟨value'', found'', ages'⟩ := ages_lowerFunction run found'
    exact ⟨value'', found'', ages.trans ages'⟩

/-- Lowering of the module is past the prologue of the function, which it came to in the context
`c0`. -/
def Enters (m : Module) (decl : Declaration) (frame : FrameId) (c0 c : Context) : Prop :=
  decl.frame = some frame ∧ (∃ rest, m.Visits (decl :: rest) c0)
    ∧ Runs (lowerPrologue decl frame) { c0 with currentFrame := some frame } () c

theorem Enters.ages {c0 : Context} (enters : m.Enters decl frame c0 c)
    (found : m.values.get? v = some value) :
    ∃ value', c.values.get? v = some value' ∧ value.Ages value' := by
  obtain ⟨_, ⟨rest, visits⟩, run⟩ := enters
  obtain ⟨_, found0, ages⟩ := visits.ages found
  have leads := of_walks (walks_lowerPrologue (fun _ => trivial)) run
  obtain ⟨value', found', ages'⟩ := leads.values found0
  exact ⟨value', found', ages.trans ages'⟩

section
variable {c0 : Context} (vetted : m.Vetted)
  (known : m.function? f = some decl) (enters : m.Enters decl frame c0 c)
include vetted known enters

theorem Enters.records_stack {offset : Nat} (listed : (v, ty, .stack offset) ∈ decl.formals) :
    c.Records v ty (.stack (.inFrame frame offset)) := by
  obtain ⟨value, found, is_ty, _, home⟩ := vetted.formals known listed
  obtain ⟨value', found', ages⟩ := enters.ages found
  exact ⟨value', found', ages.ty.trans is_ty, ages.home (home enters.1)⟩

theorem Enters.records (listed : (v, ty, place) ∈ decl.parameters) :
    c.Records v ty (place.received frame) := by
  have formal : (v, ty, place) ∈ decl.formals := List.mem_append_left _ listed
  cases place with
  | stack offset => exact enters.records_stack vetted known formal
  | register r =>
    obtain ⟨value, found, is_ty, _⟩ := vetted.formals known formal
    obtain ⟨value', found', ages⟩ := enters.ages found
    obtain ⟨⟨_, same, at_r⟩, occupied⟩ := lowerPrologue_seated enters.2.2 (mem_zip_zip listed).1
    obtain rfl := Option.mem_unique same found'
    exact ⟨_, found', ages.ty.trans is_ty, at_r, occupied⟩

theorem Enters.records_returnPointer (is_pointer : decl.returnPointer = some v) :
    c.Records v (.pointer decl.signature.result)
    (.stack (.inFrame frame Convention.returnPointerOffset)) :=
  enters.records_stack vetted known (Declaration.mem_formals_of_returnPointer is_pointer)

end

end Module

/-- The call is one of the function: it names it, or its pointer has the type and the address of the
function. -/
def Callee.Designates (l : Link) (content : ValueId → Content) (c : Context) (f : FunctionId)
    (decl : Declaration) : Callee → Prop
  | .direct function => function = f
  | .indirect pointer => content pointer = .word (l.codeBase + l.label decl.start)
      ∧ ∃ value, c.values.get? pointer = some value ∧ value.ty.signature? = some decl.signature

section
variable {content : ValueId → Content} {s s' : MachineState} {callee : Callee}
  {arguments : List ValueId} {result : Option ValueId} {sp : Word}

theorem Executes.reaches (ran : Executes hw (l.placement sp) c s c' s')
    (written : c'.code.toList <+: code) :
    Processor.Reaches hw l code ⟨s, sp, c.code.size⟩ ⟨s', sp, c'.code.size⟩ := by
  obtain ⟨run, is_run, ok⟩ := ran
  obtain ⟨rest, is_code⟩ := written
  rw [is_run] at is_code
  have size := congrArg List.length is_run
  have reached : Processor.Reaches hw l code ⟨s, sp, c.code.toList.length⟩ _ :=
    reaches_executeAll is_code.symm ok
  rw [List.length_append, Array.length_toList, Array.length_toList] at size
  rwa [Array.length_toList, ← size] at reached

theorem runs_lowerCall_internal (known : functions[f.index]? = some decl)
    (internal : decl.isExternal = false) (designates : callee.Designates l content c f decl)
    (run : Runs (lowerCall functions callee arguments result) c u c') :
    ∃ start, (∀ function, callee = .direct function → start = some decl.start)
      ∧ Runs (lowerInternalCall decl.signature start callee arguments result) c u c' := by
  cases callee with
  | direct function =>
    subst designates
    simp only [lowerCall, runs_bind] at run
    obtain ⟨found, c1, looked_up, run⟩ := run
    obtain ⟨known', rfl⟩ := runs_findFunction looked_up
    obtain rfl : decl = found := Option.mem_unique known known'
    cases linkage : decl.linkage with
    | external handle => simp [Declaration.isExternal, linkage] at internal
    | internal => exact ⟨_, fun _ _ => rfl, by simpa only [linkage] using run⟩
  | indirect pointer =>
    obtain ⟨_, value, found, typed⟩ := designates
    simp only [lowerCall, runs_found found, typed] at run
    obtain ⟨_, run⟩ | ⟨_, run⟩ := runs_ite.mp run
    · simp at run
    · exact ⟨none, by rintro _ ⟨⟩, run⟩

theorem Callee.Takes.calls {start : Option LabelId} {i : Instr} {stop pc : Nat}
    (takes : callee.Takes content start s i) (designates : callee.Designates l content c f decl)
    (named : ∀ function, callee = .direct function → start = some decl.start)
    (fetched : code[stop]? = some i)
    (labelled : labelIndex? code decl.start = some pc) (back : Word) :
    Processor.Calls l code back ⟨s, sp, stop⟩ ⟨s.write sp (Word.bytes back), sp + 8, pc⟩ := by
  cases callee with
  | direct function =>
    obtain ⟨label, is_start, rfl⟩ := takes
    obtain rfl := Option.mem_unique is_start (named function rfl)
    exact .label fetched labelled
  | indirect pointer =>
    obtain ⟨r, rfl, is_address⟩ := takes
    exact .pointer fetched (Content.word.inj (is_address.symm.trans designates.1)) labelled

end

theorem CallLayout.le_headerSizeFor (result : ResultPlace) : 8 ≤ headerSizeFor result := by
  cases result with
  | memory => decide
  | _ => exact le_rfl

theorem Signature.Passes.behind {sig : Signature} (passes : sig.Passes)
    (member : (ty, place) ∈ sig.params.zip (ofSignature sig).arguments) (offset : Nat)
    (on_stack : place = .stack offset) : 8 ≤ offset ∧ offset + ty.size ≤ 2 ^ 64 := by
  subst on_stack
  obtain ⟨above, inside, _⟩ := stack_argument member
  have header : 8 ≤ (ofSignature sig).headerSize := le_headerSizeFor _
  have fits := passes.size_le_span (List.of_mem_zip member).1
  have bounded := passes.bounded
  omega

/-- The machine is in the frame of the caller, the stack pointer is where that frame ends, and no
area reaches into the first `bound` bytes from there. -/
structure Stands (hw : Hardware) (l : Link) (p : Placement) (content : ValueId → Content)
    (caller : FrameId) (sp : Word) (bound : Nat) (c : Context) (s : MachineState)
    (extent : Area → Nat) : Prop where
  consistent : Consistent hw p content c s
  sized : ∀ {r v value}, c.registers.occupant? r = some v → c.values.get? v = some value →
    value.ty.RegisterSized
  housed : c.Housed caller
  agrees : p.Agrees caller (l.placement sp)
  separate : p.Separates extent
  clears : p.Clears extent bound

/-- Where nothing has a place yet, the bookkeeping agrees with any state of the machine. -/
theorem Stands.of_nowhere {p : Placement} {content : ValueId → Content}
    {caller : FrameId} {sp : Word} {bound : Nat} {s : MachineState} {extent : Area → Nat}
    (checked : c.check = .ok ()) (idle : c.registers.allOccupied = [])
    (nowhere : ∀ entry ∈ c.values.toList, entry.2.position = none ∧ entry.2.home? = none)
    (current : c.currentFrame = some caller) (agrees : p.Agrees caller (l.placement sp))
    (separate : p.Separates extent) (clears : p.Clears extent bound) :
    Stands hw l p content caller sp bound c s extent := by
  have vacant {r : Register} {v : ValueId} : c.registers.occupant? r ≠ some v := by
    intro occupied
    have listed := mem_allOccupied.mpr occupied
    rw [idle] at listed
    cases listed
  have unplaced {v : ValueId} {value : Value} {place : Position}
      (found : c.values.get? v = some value) :
      ¬(value.position = some place ∨ value.home? = some place) := by
    have := nowhere (v, value) (mem_toList.mpr found)
    simp_all
  constructor
  case consistent =>
    constructor
    case checked => exact checked
    case located => exact fun found owns => (unplaced found (owns.imp_left And.left)).elim
    case apart => exact fun _ found _ owns => (unplaced found (owns.imp_left And.left)).elim
    case backed => exact fun occupied => (vacant occupied).elim
    case holds => exact fun found at_position => (unplaced found (.inl at_position)).elim
    case written => exact fun found _ in_register => (unplaced found (.inl in_register)).elim
  case sized => exact fun occupied => (vacant occupied).elim
  case housed => exact ⟨current, fun occupied => (vacant occupied).elim⟩
  case agrees => exact agrees
  case separate => exact separate
  case clears => exact clears

theorem Passable.of_constant {content : ValueId → Content} {bits : Word}
    (is_word : content v = .word bits)
    (each : ∀ {value}, c.values.get? v = some value → (value.position = none ∧ value.home? = none)
      ∧ value.constant? = some bits ∧ value.ty.isScalar = true ∧ hw.Canonical value.ty bits
      ∧ value.ty.assignable ty = true ∧ value.ty.Regular) : Passable hw content frame c v ty := by
  refine ⟨⟨fun st place standing owns => ?_, fun found is_constant => ?_⟩, fun found =>
    ?_, fun found => ?_⟩
  · obtain ⟨value, found, rfl⟩ := Context.value_of_standing standing
    have nowhere := (each found).1
    simp_all [Standing.Owns, Value.standing]
  · obtain ⟨_, constant, scalar, canonical, _⟩ := each found
    obtain rfl := Option.mem_unique constant is_constant
    exact ⟨is_word, scalar, canonical⟩
  · exact (each found).2.2.2.2.1
  · exact (each found).2.2.2.2.2

/-- Without statics and blobs there are only frames. -/
theorem Context.frame_of_extent {area : Area} {i : Nat} (statics : c.statics.used = 0)
    (blobs : c.constants.blobs = #[]) (inside : i < c.extent area) :
    ∃ id size, area = .frame id ∧ c.frames.sizes[id.index]? = some size ∧ i < size := by
  cases area with
  | frame id =>
    cases known : c.frames.sizes[id.index]? with
    | none => simp [Context.extent, Frames.size?, known] at inside
    | some size =>
      exact ⟨id, size, rfl, known, by simpa [Context.extent, Frames.size?, known] using inside⟩
  | statics => simp [Context.extent, statics] at inside
  | blob id => simp [Context.extent, ConstantPool.get?, blobs] at inside

namespace Module

/-- Caller and callee agree on every argument. The code of a call runs up to the call, the call goes
to the function, and its prologue runs. Then each parameter is where the bookkeeping of the callee
has it, as the argument converted to its type, and a return pointer has the address of a new buffer
in the frame of the caller, in which the caller expects the result. An offset beyond the frame of
the caller and the same offset in that of the callee are one address, also if the prologue is left
out because the frame needs no more room. -/
theorem callee_receives_arguments {options : Options} {file : String} {calls : List ModuleCall}
    {f : FunctionId} {decl : Declaration} {frame caller : FrameId} {c c' c₀ c₁ : Context}
    {hw : Hardware} {l : Link} {p : Placement} {sp : Word} {content : ValueId → Content}
    {s : MachineState} {callee : Callee} {arguments : List ValueId} {result : Option ValueId}
    {program : Program} (finished : (build options file calls).finish = .ok program)
    (known : (build options file calls).function? f = some decl)
    (internal : decl.isExternal = false)
    (unplaced : ∀ g, ¬(build options file calls).Places g decl.start)
    (passes : decl.signature.Passes) (enters : (build options file calls).Enters decl frame c₀ c₁)
    (designates : callee.Designates l content c f decl)
    (passable : ∀ {v ty}, (v, ty) ∈ arguments.zip decl.signature.params →
      Passable hw content caller c v ty)
    (supplied : ∀ pointer, callee = .indirect pointer → Supplied hw content caller c pointer)
    (run : Runs (lowerCall (build options file calls).functions callee arguments result) c () c')
    (stands : Stands hw l p content caller sp decl.layout.argumentsEnd c s c'.extent)
    (called : c'.code.toList <+: program.instrs) (entered : c₁.code.toList <+: program.instrs)
    (back : Word) : ∃ c₂ s₂ s', Leads c c₂ ∧ Tracks hw p content c₂.books s₂
      ∧ Processor.Reaches hw l program.instrs ⟨s, sp, c.code.size⟩ ⟨s₂, sp, c₂.code.size⟩
      ∧ Processor.Calls l program.instrs back ⟨s₂, sp, c₂.code.size⟩ ⟨s', sp + 8, c₀.code.size⟩
      ∧ Processor.Reaches hw l program.instrs ⟨s', sp + 8, c₀.code.size⟩
        ⟨s', l.entered sp frame, c₁.code.size⟩
      ∧ arguments.length = decl.params.length
      ∧ (∀ (i : Nat) argument param, arguments[i]? = some argument → decl.params[i]? = some param →
          ∃ ty place, decl.signature.params[i]? = some ty ∧ c₁.Records param ty place
            ∧ Conveys hw p content c₂ argument ty
              (hw.view (l.placement (l.entered sp frame)) s' ty place))
      ∧ (decl.layout.result = .memory → ∃ pointer slot,
          decl.returnPointer = some pointer
            ∧ c₁.Records pointer (.pointer decl.signature.result)
              (.stack (.inFrame frame Convention.returnPointerOffset))
            ∧ Reserves caller decl.signature.result.size c slot c₂
            ∧ hw.view (l.placement (l.entered sp frame)) s' (.pointer decl.signature.result)
              (.stack (.inFrame frame Convention.returnPointerOffset))
              = .word ((l.placement sp).slot slot)
            ∧ ∀ v, result = some v → ∃ value, c'.values.get? v = some value
              ∧ value.position = some (.stack slot))
      ∧ (∀ offset d d', l.layout.displacement (.outgoing offset) = .ok d →
          l.layout.displacement (.inFrame frame offset) = .ok d' →
          sp + BitVec.ofInt 64 d = l.entered sp frame + BitVec.ofInt 64 d')
      ∧ (l.layout.stackAmount (.enter frame) = .ok 0 → l.entered sp frame = sp + 8) := by
  have vetted := vetted_build options file calls
  obtain ⟨length, _, returns⟩ := vetted.opened known (defined_of_finish finished known internal)
  obtain ⟨start, named, lowered⟩ := runs_lowerCall_internal known internal designates run
  obtain ⟨i, c₂, s₂, rings, takes⟩ :=
    lowerInternalCall_rings (stands.consistent.tracks stands.sized)
    stands.housed passes passable supplied stands.clears stands.separate lowered
  obtain ⟨after, written⟩ := rings.code
  obtain ⟨rest, is_code⟩ := called
  rw [written] at is_code
  have early : c₂.code.toList <+: program.instrs := ⟨i :: after ++ rest, by simpa using is_code⟩
  have fetched : program.instrs[c₂.code.size]? = some i := by
    rw [← is_code]
    simp
  have labelled := lowerPrologue_labelled enters.2.2 entered (count_finished finished unplaced)
  have outgoing : p.outgoing = sp := stands.agrees.outgoing.symm
  refine ⟨c₂, s₂, s₂.write sp (Word.bytes back), rings.leads, rings.poised.tracks,
    (rings.stays.executes rings.executes stands.agrees).reaches early,
    takes.calls designates named fetched labelled back,
      lowerPrologue_reaches enters.2.2 entered _ _,
    rings.arity.trans length.symm, ?_, ?_, ?_, fun still => l.entered_of_still still sp⟩
  · intro n argument param at_argument at_param
    have small : n < decl.signature.params.length :=
      length ▸ (List.getElem?_eq_some_iff.mp at_param).1
    have small' : n < decl.layout.arguments.length := by
      rw [Declaration.layout, CallLayout.length_arguments]
      exact small
    have at_ty := List.getElem?_eq_getElem small
    have at_place := List.getElem?_eq_getElem small'
    have passed := mem_zip_of_getElem? at_argument at_place at_ty
    have listed : (param, _, _) ∈ decl.parameters := mem_zip_of_getElem? at_param at_ty at_place
    refine ⟨_, _, at_ty, enters.records vetted known listed, ?_⟩
    rw [Hardware.view_received frame outgoing (passes.behind (mem_zip_zip passed).2)]
    exact rings.there passed
  · intro in_memory
    obtain ⟨slot, reserves, read, position⟩ := rings.buffer in_memory
    obtain ⟨pointer, is_pointer⟩ := Option.isSome_iff_exists.mp (returns.mpr in_memory)
    refine ⟨pointer, slot, is_pointer, enters.records_returnPointer vetted known is_pointer,
      reserves, ?_, position⟩
    have alike := Ty.alike_of_isPointer (.pointer decl.signature.result) rfl
    have seen : hw.view (l.placement (l.entered sp frame)) (s₂.write sp (Word.bytes back))
        (.pointer decl.signature.result)
        ((ArgumentPlace.stack Convention.returnPointerOffset).received frame) = _ :=
      Hardware.view_received frame outgoing fun offset same => by
        cases same
        rw [← alike.size]
        decide
    refine seen.trans ((Hardware.read_alike alike _ _).trans (read.trans ?_))
    exact congrArg Content.word (stands.agrees.slot_eq (.inl reserves.base)).symm
  · intro offset d d' is_d is_d'
    rw [← Link.slot_eq_displacement is_d, ← Link.slot_eq_displacement is_d', l.slot_entered]

/-- A call with a constant that is converted to the type of the parameter. -/
def narrowCalls : List ModuleCall :=
  [.declare "main" ⟨[], .void⟩ .internal 1, .declare "narrow" ⟨[.int 1 false], .void⟩ .internal 2,
    .define ⟨0⟩ [] 3 [.constant (.int 4 true) (-1), .call ⟨1⟩ [⟨0⟩], .ret none] true,
    .define ⟨1⟩ ["a"] 4 [] true]

def narrowModule : Module := build {} "narrow.c" narrowCalls

def narrowCaller : Declaration := narrowModule.functions[0]!

def narrowFunction : Declaration := narrowModule.functions[1]!

def narrowCall : Context :=
  (outcome (lowerPrologue narrowCaller ⟨0⟩)
    { narrowModule.context with currentFrame := some ⟨0⟩ }).2

def narrowCalled : Context :=
  (outcome (lowerCall narrowModule.functions (.direct ⟨1⟩) [⟨0⟩] none) narrowCall).2

def narrowVisited : Context :=
  (outcome (lowerFunction narrowModule.functions narrowCaller) narrowModule.context).2

def narrowEntered : Context :=
  (outcome (lowerPrologue narrowFunction ⟨1⟩) { narrowVisited with currentFrame := some ⟨1⟩ }).2

def narrowLink : Link := ⟨⟨#[8, 8], 0⟩, 0, 0, fun _ => 0, fun _ => 0⟩

def narrowPlacement : Placement :=
  { narrowLink.placement 4096 with frame := fun id => if id = ⟨0⟩ then 4088 else 8192 }

theorem narrow_extent {area : Area} {i : Nat} (inside : i < narrowCalled.extent area) :
    (area = .frame ⟨0⟩ ∨ area = .frame ⟨1⟩) ∧ i < 8 := by
  have sizes : narrowCalled.frames.sizes = #[8, 8] := by decide +kernel
  obtain ⟨⟨index⟩, size, rfl, known, below⟩ :=
    Context.frame_of_extent (by decide +kernel) (by decide +kernel) inside
  rw [sizes] at known
  match index with
  | 0 => exact ⟨.inl rfl, by simp_all⟩
  | 1 => exact ⟨.inr rfl, by simp_all⟩
  | n + 2 => simp at known

theorem narrow_stands : Stands .zero narrowLink narrowPlacement (fun _ => .word (-1)) ⟨0⟩ 4096
    narrowFunction.layout.argumentsEnd narrowCall ⟨fun _ => 0, fun _ => 0⟩ narrowCalled.extent := by
  have frame0 (i : Nat) : narrowPlacement.address ⟨.frame ⟨0⟩, i⟩ = 4088 + BitVec.ofNat 64 i := rfl
  have frame1 (i : Nat) : narrowPlacement.address ⟨.frame ⟨1⟩, i⟩ = 8192 + BitVec.ofNat 64 i := rfl
  refine .of_nowhere (by decide +kernel) (by decide +kernel) (by decide +kernel) (by decide +kernel)
    ⟨by decide +kernel, rfl, rfl, rfl, rfl, rfl⟩ ?_ ?_
  · intro a b i j hi hj same
    obtain ⟨rfl | rfl, below⟩ := narrow_extent hi <;> obtain ⟨rfl | rfl, below'⟩ := narrow_extent hj
    · exact ⟨rfl, Placement.offset_eq_of_address_eq (by omega) (by omega) same⟩
    · rw [frame0, frame1] at same
      bv_omega
    · rw [frame0, frame1] at same
      bv_omega
    · exact ⟨rfl, Placement.offset_eq_of_address_eq (by omega) (by omega) same⟩
  · intro area i j hi hj same
    have bound : narrowFunction.layout.argumentsEnd = 8 := by decide +kernel
    have outgoing : narrowPlacement.outgoing = 4096 := rfl
    rw [outgoing] at same
    obtain ⟨rfl | rfl, below⟩ := narrow_extent hi
    · rw [frame0] at same
      bv_omega
    · rw [frame1] at same
      bv_omega

theorem value_of_narrowArgument (found : narrowCall.values.get? ⟨0⟩ = some value) :
    (value.position = none ∧ value.home? = none) ∧ value.ty = .int 4 true
      ∧ value.constant? = some (-1) := by
  have facts : (narrowCall.values.get? ⟨0⟩).map (fun value =>
      (value.position, value.home?, value.ty, value.constant?))
        = some (none, none, .int 4 true, some (-1)) := by decide +kernel
  simp only [found, Option.map_some, Option.some.injEq, Prod.mk.injEq] at facts
  exact ⟨⟨facts.1, facts.2.1⟩, facts.2.2⟩

theorem narrow_passable (member : (v, ty) ∈ [⟨0⟩].zip narrowFunction.signature.params) :
    Passable .zero (fun _ => .word (-1)) ⟨0⟩ narrowCall v ty := by
  have params : narrowFunction.signature.params = [.int 1 false] := by decide +kernel
  obtain ⟨rfl, rfl⟩ : v = ⟨0⟩ ∧ ty = .int 1 false := by simpa [params] using member
  refine .of_constant rfl fun found => ?_
  obtain ⟨nowhere, is_ty, constant⟩ := value_of_narrowArgument found
  rw [is_ty]
  exact ⟨nowhere, constant, rfl, rfl, by decide, by decide⟩

/-- The constant -1 arrives as 255. -/
theorem callee_receives_narrowed : ∃ program s₂ s' stop, narrowModule.finish = .ok program
      ∧ Processor.Reaches .zero narrowLink program.instrs
        ⟨⟨fun _ => 0, fun _ => 0⟩, 4096, narrowCall.code.size⟩ ⟨s₂, 4096, stop⟩
      ∧ Processor.Calls narrowLink program.instrs 7 ⟨s₂, 4096, stop⟩
        ⟨s', 4104, narrowVisited.code.size⟩
      ∧ Processor.Reaches .zero narrowLink program.instrs ⟨s', 4104, narrowVisited.code.size⟩
        ⟨s', 4104, narrowEntered.code.size⟩ ∧ s'.registers (.int 0) = 255 := by
  have known : narrowModule.function? ⟨1⟩ = some narrowFunction := by decide +kernel
  have functions :
      narrowModule.functions.toList = [narrowCaller, narrowFunction] := by decide +kernel
  have started : Runs (lowerEntry narrowModule.functions narrowModule.entry) narrowModule.context ()
      narrowModule.context := by
    rw [show narrowModule.entry = none by decide +kernel]
    exact runs_pure.mpr ⟨rfl, rfl⟩
  have lowered : Runs (lowerFunction narrowModule.functions narrowCaller) narrowModule.context
      (0, narrowVisited.code.size) narrowVisited := Prod.ext (by decide +kernel) rfl
  have visited : narrowModule.Visits [narrowFunction] narrowVisited :=
    .function (functions ▸ .entry started) (by decide +kernel) lowered
  have enters : narrowModule.Enters narrowFunction ⟨1⟩ narrowVisited narrowEntered :=
    ⟨by decide +kernel, ⟨[], visited⟩, Prod.ext (by decide +kernel) rfl⟩
  have run : Runs (lowerCall narrowModule.functions (.direct ⟨1⟩) [⟨0⟩] none) narrowCall ()
      narrowCalled := Prod.ext (by decide +kernel) rfl
  have unplaced : ∀ g, ¬narrowModule.Places g narrowFunction.start := by
    rintro g ⟨decl, is_decl, placed⟩
    have none : ∀ decl ∈ narrowModule.functions, .label narrowFunction.start ∉ decl.operations := by
      decide +kernel
    exact none decl (Array.mem_of_getElem? is_decl) placed
  have designates : (Callee.direct ⟨1⟩).Designates narrowLink (fun _ => .word (-1)) narrowCall ⟨1⟩
      narrowFunction := rfl
  obtain ⟨program, finished, within, entered⟩ : ∃ program, narrowModule.finish = .ok program
      ∧ narrowCalled.code.toList <+: program.instrs
        ∧ narrowEntered.code.toList <+: program.instrs :=
    exists_program (by decide +kernel)
  obtain ⟨c₂, s₂, s', leads, _, first, called, second, _, passed, _⟩ :=
    callee_receives_arguments finished known (by decide +kernel) unplaced
      (by constructor <;> decide +kernel) enters designates narrow_passable (by rintro _ ⟨⟩) run
      narrow_stands within entered 7
  have end_of_frame : narrowLink.entered 4096 ⟨1⟩ = 4104 := by decide +kernel
  rw [end_of_frame] at second passed
  obtain ⟨ty, place, at_ty, ⟨value, found, _, here⟩, argument, found', is_passed⟩ :=
    passed 0 ⟨0⟩ ⟨1⟩ rfl (by decide +kernel)
  have recorded : (narrowEntered.values.get? ⟨1⟩).map (fun value => (value.position, value.home?))
      = some (some (.register (.int 0)), none) := by decide +kernel
  simp only [found, Option.map_some, Option.some.injEq, Prod.mk.injEq] at recorded
  obtain rfl : place = .register (.int 0) := by
    cases place with
    | register r => simpa [recorded.1] using here.1.symm
    | _ => cases recorded.2.symm.trans here
  obtain rfl : ty = .int 1 false := by
    simpa [show narrowFunction.signature.params = [.int 1 false] by decide +kernel] using at_ty.symm
  obtain ⟨early, found, ages⟩ := leads.before found'
  rw [ages.ty, (value_of_narrowArgument found).2.1] at is_passed
  exact ⟨program, s₂, s', c₂.code.size, finished, first, called, second,
    Content.word.inj (is_passed.trans (by decide +kernel))⟩

end Module

end RegisterBackend
