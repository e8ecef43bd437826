import RegisterBackend.Proofs.Brackets

/-!
What a host function is handed. A host that pops pairs of a tag and a word until it finds the zero
gets all arguments in order: no tag is zero, whatever the words are.
-/
namespace RegisterBackend

open Gen Discipline BitVec List RegisterFile Instr

variable {c c' : Context} {code : List Instr} {content : ValueId → Content}
  {entries : List (ValueId × Ty)} {floatResult : Bool} {frame : FrameId}
  {held loaded : List (Register × Word)} {hw : Hardware} {l : Link} {p : Placement} {s
    s' : MachineState} {ty : Ty} {v : ValueId} {handle sp : Word} {i k left n : Nat} {value : Value}

/-- The words that lie between the two addresses, the topmost first. -/
def Memory.Stacks (m : Memory) (bottom : Word) : Word → List Word → Prop
  | top, [] => top = bottom
  | top, w :: rest => m.word (top - 8) = w ∧ m.Stacks bottom (top - 8) rest

theorem Memory.Stacks.write {m : Memory} {bottom top : Word} {words : List Word}
    {bytes : List UInt8} (piled : m.Stacks bottom top words) (length : bytes.length = 8)
    (room : 8 * (n + 1 + words.length) ≤ 2 ^ 64) :
    (m.write (top + BitVec.ofNat 64 (8 * n)) bytes).Stacks bottom top words := by
  induction words generalizing top n with
  | nil => exact piled
  | cons w rest ih =>
    simp only [List.length_cons] at room
    have same : top + BitVec.ofNat 64 (8 * n) = top - 8 + BitVec.ofNat 64 (8 * (n + 1)) := by
      rw [show 8 * (n + 1) = 8 + 8 * n by omega, BitVec.ofNat_add, ← BitVec.add_assoc]
      congr 1
      exact (BitVec.sub_add_cancel top 8).symm
    rw [same]
    refine ⟨?_, ih piled.2 (by omega)⟩
    rw [← piled.1, Memory.word, Memory.word]
    refine congrArg Word.ofBytes
      (Memory.bytes_congr fun i small => Memory.write_of_apart _ fun j below meet => ?_)
    rw [BitVec.add_assoc, ← BitVec.ofNat_add] at meet
    have meet := congrArg BitVec.toNat ((BitVec.add_right_inj _).mp meet)
    rw [BitVec.toNat_ofNat, BitVec.toNat_ofNat, Nat.mod_eq_of_lt (by omega),
      Nat.mod_eq_of_lt (by omega)] at meet
    omega

def Instr.pushedWord (registers : Register → Word) : Instr → Word
  | .push r => registers r
  | .pushImm bits => bits
  | _ => 0

namespace Processor

def pushAll (q : Processor) (words : List Word) : Processor := words.foldl pushed q

theorem pushAll_append (q : Processor) (first second : List Word) :
    q.pushAll (first ++ second) = (q.pushAll first).pushAll second := foldl_append

@[simp] theorem pc_pushAll (q : Processor) (words : List Word) :
    (q.pushAll words).pc = q.pc + words.length := by
  induction words generalizing q with
  | nil => rfl
  | cons w rest ih =>
    refine (ih (q.pushed w)).trans ?_
    simp only [pushed, length_cons]
    omega

theorem stacks_pushAll (q : Processor) {words : List Word} (room : 8 * words.length ≤ 2 ^ 64) :
    (q.pushAll words).state.memory.Stacks q.sp (q.pushAll words).sp words.reverse := by
  induction words using List.reverseRecOn with
  | nil => rfl
  | append_singleton words w ih =>
    simp only [List.length_append, List.length_singleton] at room
    rw [pushAll_append, List.reverse_append]
    set q1 := q.pushAll words
    have back : q1.sp + 8 - 8 = q1.sp := BitVec.add_sub_cancel _ _
    have piled : (q1.state.memory.write q1.sp (Word.bytes w)).Stacks q.sp q1.sp words.reverse := by
      have piled := (ih (by omega)).write (n := 0) (length_wordBytes w) (by simp; omega)
      simpa using piled
    have top : (q1.state.memory.write q1.sp (Word.bytes w)).word q1.sp = w := by
      have written := q1.state.memory.bytes_write q1.sp (Word.bytes w) (by simp)
      rw [length_wordBytes] at written
      rw [Memory.word, written, ofBytes_wordBytes]
    change Memory.Stacks _ q.sp (q1.sp + 8) (w :: words.reverse)
    exact ⟨by rw [back]; exact top, by rw [back]; exact piled⟩

def advance? (hw : Hardware) (l : Link) (code : List Instr) (q : Processor) : Option Processor :=
  match code[q.pc]? with
  | some (.push r) => some (q.pushed (q.state.registers r))
  | some (.pushImm bits) => some (q.pushed bits)
  | _ => q.step? hw l code

def Advances (hw : Hardware) (l : Link) (code : List Instr) : Processor → Processor → Prop :=
  Relation.ReflTransGen fun q q' => q.advance? hw l code = some q'

variable {q q' : Processor}

theorem Reaches.advances (reaches : Reaches hw l code q q') : Advances hw l code q q' := by
  induction reaches with
  | refl q => exact .refl
  | @step q q' q'' first _ ih =>
    refine .head ?_ ih
    unfold advance?
    split
    · next fetched => simp [step?, fetched, execute] at first
    · next fetched => simp [step?, fetched, execute] at first
    · exact first

theorem advances_pushes {before pushes after : List Instr}
    (split : code = before ++ pushes ++ after) (all_push : ∀ i ∈ pushes, i.isPush = true) :
    Advances hw l code ⟨s, sp, before.length⟩
      (pushAll ⟨s, sp, before.length⟩ (pushes.map (pushedWord s.registers))) := by
  induction pushes generalizing before s sp with
  | nil => exact .refl
  | cons i rest ih =>
    rw [forall_mem_cons] at all_push
    have fetched : code[before.length]? = some i := by simp [split]
    have one : advance? hw l code ⟨s, sp, before.length⟩
        = some (pushed ⟨s, sp, before.length⟩ (i.pushedWord s.registers)) := by
      cases i with
      | push r | pushImm bits => simp only [advance?, fetched, pushedWord]
      | _ => cases all_push.1
    have later := @ih (s.write sp (Word.bytes (i.pushedWord s.registers))) (sp + 8) (before ++ [i])
      (by simp [split]) all_push.2
    rw [length_append] at later
    exact .head one later

end Processor

structure HostCall where
  arguments : List (Word × Word)
  resultTag : Word
  handle : Word

/-- The host pops pairs of a tag and a word until it pops a zero tag, and then the tag of the result
and the handle. -/
inductive HostCall.Pops (m : Memory) : Word → HostCall → Word → Prop
  | stop {top : Word} : m.word (top - 8) = 0 →
      Pops m top ⟨[], m.word (top - 8 - 8), m.word (top - 8 - 8 - 8)⟩ (top - 8 - 8 - 8)
  | argument {top bottom : Word} {call : HostCall} :
      m.word (top - 8) ≠ 0 → Pops m (top - 8 - 8) call bottom →
      Pops m top { call with
        arguments := (m.word (top - 8), m.word (top - 8 - 8)) :: call.arguments } bottom

namespace HostCall
variable {m : Memory} {top bottom bottom' : Word} {call call' : HostCall}

theorem Pops.unique (pops : Pops m top call bottom) (pops' : Pops m top call' bottom') :
    call' = call ∧ bottom' = bottom := by
  induction pops generalizing call' bottom' with
  | stop zero =>
    cases pops' with
    | stop => exact ⟨rfl, rfl⟩
    | argument nonzero => exact absurd zero nonzero
  | argument nonzero _ ih =>
    cases pops' with
    | stop zero => exact absurd zero nonzero
    | argument _ rest =>
      obtain ⟨rfl, rfl⟩ := ih rest
      exact ⟨rfl, rfl⟩

def words (call : HostCall) : List Word :=
  call.arguments.flatMap
    (fun argument => [argument.1, argument.2]) ++ [0, call.resultTag, call.handle]

theorem pops_iff (tagged : ∀ argument ∈ call.arguments, argument.1 ≠ 0)
    (piled : m.Stacks bottom top call.words) :
    Pops m top call' bottom' ↔ call' = call ∧ bottom' = bottom := by
  have pops : Pops m top call bottom := by
    obtain ⟨arguments, resultTag, handle⟩ := call
    induction arguments generalizing top with
    | nil =>
      obtain ⟨zero, rfl, rfl, rfl⟩ := piled
      exact .stop zero
    | cons argument rest ih =>
      obtain ⟨tag, w⟩ := argument
      obtain ⟨rfl, rfl, later⟩ := piled
      rw [forall_mem_cons] at tagged
      exact .argument tagged.1 (ih tagged.2 later)
  constructor
  · exact pops.unique
  · rintro ⟨rfl, rfl⟩
    exact pops

end HostCall

namespace Signature.Hostable
variable {sig : Signature} (hostable : sig.Hostable)
include hostable

theorem size_lt (listed : ty ∈ sig.params) : ty.size < 2 ^ 64 := by
  have in_register := hostable.params ty listed
  have fits : ty.fitsRegister = true := by
    by_contra unfit
    simp [PassingClass.ofTy, unfit] at in_register
  have sized := Ty.registerSized_of_fitsRegister fits
  unfold Ty.RegisterSized at sized
  omega

theorem length_le : sig.params.length ≤ 24 := by
  have counted (params : List Ty) (in_registers : ∀ ty ∈ params, PassingClass.ofTy ty ≠ .memory) :
      params.length = (params.map PassingClass.ofTy).count
        .integer + (params.map PassingClass.ofTy).count .float := by
    induction params with
    | nil => rfl
    | cons ty rest ih =>
      rw [forall_mem_cons] at in_registers
      have tail := ih in_registers.2
      cases of_ty : PassingClass.ofTy ty with
      | memory => exact absurd of_ty in_registers.1
      | integer | float =>
        simp [of_ty]
        omega
  have ints := hostable.ints
  have floats := hostable.floats
  have all := counted sig.params hostable.params
  simp only [Module.maxExternalArguments] at ints floats
  omega

end Signature.Hostable

section
variable {c1 c2 : Context} {s1 s2 : MachineState} {r : Register} {w : Word}

/-- Code that leaves alone what is locked and where values are. -/
structure Travels (hw : Hardware) (p : Placement) (frame : FrameId) (c : Context) (s : MachineState)
    (c' : Context) (s' : MachineState) : Prop where
  executes : Executes hw p c s c' s'
  stays : Stays frame c c'
  leads : Leads c c'
  retains : c.books.Retains c'.books
  locks : ∀ {q}, c.registers.isLocked q = true → c'.registers.isLocked q = true
  spares : ∀ {q}, c.registers.isLocked q = true → Spares q c c'

theorem Travels.refl (c : Context) (s : MachineState) : Travels hw p frame c s c s where
  executes := .of_code rfl
  stays := .refl c
  leads := .refl c
  retains := .refl _
  locks is_locked := is_locked
  spares _ := .of_code rfl

theorem Travels.trans (first : Travels hw p frame c s c1 s1)
    (second : Travels hw p frame c1 s1 c' s') : Travels hw p frame c s c' s' where
  executes := first.executes.trans second.executes
  stays := first.stays.trans second.stays
  leads := first.leads.trans second.leads
  retains := first.retains.trans second.retains
  locks is_locked := second.locks (first.locks is_locked)
  spares is_locked := (first.spares is_locked).trans (second.spares (first.locks is_locked))

/-- An argument is loaded into a register, which is locked from then on. -/
structure Brings (hw : Hardware) (p : Placement) (content : ValueId → Content)
    (frame : FrameId) (v : ValueId) (ty : Ty) (r : Register) (w : Word) (c : Context)
    (s : MachineState) (c' : Context) (s' : MachineState) :
    Prop extends Travels hw p frame c s c' s' where
  copied : ∃ c1, Runs (copyConverted v (.register r) ty) (c.withLock r true) () c1
    ∧ c'.code = c1.code
  conveys : Conveys hw p content c' v ty (.word w)
  loaded : s'.registers r = w
  locked : c'.registers.isLocked r = true

inductive BringsAll (hw : Hardware) (p : Placement) (content : ValueId → Content)
    (frame : FrameId) :
    List (ValueId × Ty) → List (Register × Word) → Context → MachineState → Context →
    MachineState → Prop
  | nil (c : Context) (s : MachineState) : BringsAll hw p content frame [] [] c s c s
  | cons {v : ValueId} {ty : Ty} {r : Register} {w : Word} {entries : List (ValueId × Ty)}
      {held : List (Register × Word)} {c c1 c' : Context} {s s1 s' : MachineState} :
      Brings hw p content frame v ty r w c s c1 s1 →
      BringsAll hw p content frame entries held c1 s1 c' s' →
      BringsAll hw p content frame ((v, ty) :: entries) ((r, w) :: held) c s c' s'

def tagged (entries : List (ValueId × Ty)) (held : List (Register × Word)) :
    List (Register × Word) :=
  zipWith (fun entry place => (place.1, argumentTag entry.2)) entries held

namespace BringsAll

section
variable (brings : BringsAll hw p content frame entries held c s c' s')
include brings

theorem travels : Travels hw p frame c s c' s' := by
  induction brings with
  | nil c s => exact .refl c s
  | cons first _ ih => exact first.toTravels.trans ih

theorem length : held.length = entries.length := by
  induction brings with
  | nil => rfl
  | cons _ _ ih => exact congrArg (· + 1) ih

theorem each (listed : entries[i]? = some (v, ty)) : ∃ r w c1 s1 c2 s2, held[i]? = some (r, w)
      ∧ Travels hw p frame c s c1 s1 ∧ Brings hw p content frame v ty r w c1 s1 c2 s2
      ∧ Travels hw p frame c2 s2 c' s' := by
  induction brings generalizing i with
  | nil => simp at listed
  | cons first later ih =>
    cases i with
    | zero =>
      cases listed
      exact ⟨_, _, _, _, _, _, rfl, .refl _ _, first, later.travels⟩
    | succ i =>
      obtain ⟨r, w, c1, s1, c2, s2, at_held, before, brought, after⟩ := ih listed
      exact ⟨r, w, c1, s1, c2, s2, at_held, first.toTravels.trans before, brought, after⟩

theorem holds : ∀ place ∈ held, s'.registers place.1 = place.2 := by
  induction brings with
  | nil => simp
  | cons first later ih =>
    rw [forall_mem_cons]
    refine ⟨?_, ih⟩
    have travels := later.travels
    exact ((travels.spares first.locked).kept travels.executes).trans first.loaded

end

end BringsAll

theorem brings_copyConverted (poised : Poised hw p content frame c s)
    (passable : Passable hw content frame c v ty) (regular : ty.Regular) (small : ty.size < 2 ^ 64)
    (bank : r.bank = ty.bank) (range : r.inRange = true) (unlocked : c.registers.isLocked r = false)
    (separate : p.Separates c2.extent)
    (copied : Runs (copyConverted v (.register r) ty) (c.withLock r true) () c1)
    (consumed : Runs (consume v) c1 left c2) :
    ∃ w s', Brings hw p content frame v ty r w c s c2 s' ∧ Poised hw p content frame c2 s' := by
  have walked := (walks_copyConverted (D := .free) v (.register r) ty _ _ trivial copied).2
  have leads2 := Leads.of_walks (walks_consume v) consumed
  obtain ⟨_, _, _, rfl⟩ := runs_consume consumed
  have nothing : p.Clears c1.extent 0 := fun _ _ _ _ below => absurd below (Nat.not_lt_zero _)
  obtain ⟨passed, s', conveys, delivers⟩ : ∃ passed s', Conveys hw p content c1 v ty passed
      ∧ Delivers hw p content frame (c.withLock r true) s (.register r) ty passed c1 s' :=
    copyConverted_delivers (poised.withLock r true)
      (passable.after (.withLock c r true) (.withLock c r true)) regular
      ⟨bank, range⟩ small nothing (separate.mono leads2.extent) copied
  obtain rfl : Content.word (s'.registers r) = passed := delivers.there
  have books := c1.books_consume v left
  have locks {q : Register} (is_locked : (c.withLock r true).registers.isLocked q = true) :
      c1.registers.isLocked q = true := by rwa [RegisterFile.isLocked, walked.2]
  refine ⟨s'.registers r, s', ⟨?_, ⟨c1, copied, rfl⟩, ?_, rfl, locks (isLocked_lock_self _ range)⟩,
    delivers.poised.step books rfl fun _ => rfl⟩
  · constructor
    case executes => exact delivers.executes
    case stays =>
      exact (Stays.withLock c r true).trans
        (delivers.stays.trans (.of_standing (by rw [books]) rfl))
    case leads => exact (Leads.withLock c r true).trans (walked.1.trans leads2)
    case retains =>
      rw [books]
      have retains := delivers.retains
      rwa [Context.books_withLock] at retains
    case locks => exact fun is_locked => locks (isLocked_lock r is_locked)
    case spares =>
      intro q is_locked
      refine delivers.spares (isLocked_lock r is_locked) ?_
      rintro ⟨⟩
      simp [unlocked] at is_locked
  · refine conveys.after leads2 ?_
    rw [books]
    exact fun _ _ standing owns => ⟨_, standing, owns⟩

theorem loadArguments_brings {α : Type} {next : List (Register × Word) → Gen α} {a : α}
    (poised : Poised hw p content frame c s)
    (prepared : ∀ v ty, (v, ty) ∈ entries → Passable hw content frame c v ty ∧ ty.Regular
      ∧ ty.size < 2 ^ 64)
    (walks : ∀ {c} loaded, Discipline.free.Walks c (next loaded)) (separate : p.Separates c'.extent)
    (run : Runs (loadArguments next entries loaded) c a c') :
    ∃ held c1 s1 c2, BringsAll hw p content frame entries held c s c1 s1
    ∧ Poised hw p content frame c1 s1
      ∧ Runs (next ((tagged entries held).reverse ++ loaded)) c1 a c2 ∧ c2.Relocks c' := by
  induction entries generalizing c s c' loaded with
  | nil => exact ⟨[], c, s, c', .nil c s, poised, run, ⟨_, rfl⟩⟩
  | cons entry rest ih =>
    obtain ⟨v, ty⟩ := entry
    obtain ⟨passable, regular, small⟩ := prepared v ty mem_cons_self
    have block := poised.holdingRegisterOf run
    simp only [runs_bind, runs_holding, runs_discard] at block
    obtain ⟨r, c0, obtained, c3, ⟨_, c1, copied, _, c2, ⟨left, consumed⟩, later⟩, rfl⟩ := block
    obtain ⟨rfl, bank, range, unlocked⟩ := obtainRegister_vacant poised.vacant obtained
    have leads3 := (walks_loadArguments walks rest _ _ _ trivial later).2.1
    have relocks := c3.relocks_withLock r (c0.registers.isLocked r)
    rw [relocks.extent] at separate
    obtain ⟨w, s1, brings, poised2⟩ :=
      brings_copyConverted poised passable regular small bank range unlocked
      (separate.mono leads3.extent) copied consumed
    obtain ⟨held, c4, s4, c5, all, poised4, ran, relocks'⟩ := ih poised2
      (fun w ty' member => (prepared w ty' (mem_cons_of_mem _ member)).imp_left
        fun passable => passable.after brings.leads brings.stays) separate later
    refine ⟨(r, w) :: held, c4, s4, c5, .cons brings all, poised4, ?_, relocks'.trans relocks⟩
    simpa [tagged] using ran

theorem lowerExternalCall_brings {decl : Declaration} {arguments : List ValueId}
    {result : Option ValueId} {u : Unit} (tracks : Tracks hw p content c.books s)
    (housed : c.Housed frame) (hostable : decl.signature.Hostable)
    (regular : ∀ ty ∈ decl.signature.params, ty.Regular) (passable : ∀ {v ty},
      (v, ty) ∈ arguments.zip decl.signature.params → Passable hw content frame c v ty)
    (separate : p.Separates c'.extent)
    (run : Runs (lowerExternalCall decl handle arguments result) c u c') :
    ∃ held c0 s0 c1 s1, arguments.length = decl.signature.params.length
      ∧ Executes hw p c s c0 s0 ∧ Stays frame c c0 ∧ Leads c c0
      ∧ BringsAll hw p content frame (arguments.zip decl.signature.params) held c0 s0 c1 s1
      ∧ c1.code.toList ++ Instr.handsOver handle decl.signature.result.isFloat
          (tagged (arguments.zip decl.signature.params) held).reverse
        ++ [.callExternal decl.signature.hostResult] <+: c'.code.toList := by
  unfold lowerExternalCall at run
  obtain ⟨_, run⟩ | ⟨arity, run⟩ := runs_ite.mp run
  · simp at run
  have arity : arguments.length = decl.signature.params.length := by simpa using arity
  simp only [runs_bind] at run
  obtain ⟨_, c0, vacated, _, c2, loaded, _, c3, dropped, ended⟩ := run
  have leads0 := Leads.of_walks walks_vacateAll vacated
  have leads2 := (walks_loadArguments (D := .free)
    (fun _ => walks_emitExternalCall _ _ _ _) _ _ _ _ trivial loaded).2.1
  have leads4 : Leads c3 c' := by
    cases result with
    | none =>
      obtain ⟨_, rfl⟩ := runs_pure.mp ended
      exact .refl c'
    | some v => exact Leads.of_walks (walks_bindRegister trivial) ended
  have later := (Leads.of_walks (walks_dropAll false) dropped).trans leads4
  obtain ⟨room, vacant⟩ : MakesRoom hw p (fun _ => True) id c c0 ∧ _ := vacateAll_room vacated
  obtain ⟨s0, executes0, tracks0, _⟩ :=
    room.carries tracks (separate.mono (leads2.trans later).extent)
  obtain ⟨housed0, stays0⟩ := vacateAll_resides vacated housed
  have poised0 : Poised hw p content frame c0 s0 := ⟨tracks0, vacant, housed0.current⟩
  obtain ⟨held, c1, s1, c4, brings, _, emitted, relocks⟩ :=
    loadArguments_brings poised0 (fun v ty member => by
    have listed := (of_mem_zip member).2
    exact ⟨(passable member).after leads0 stays0, regular ty listed, hostable.size_lt listed⟩)
    (fun _ => walks_emitExternalCall _ _ _ _) (separate.mono later.extent) loaded
  refine ⟨held, c0, s0, c1, s1, arity, executes0, stays0, leads0, brings, ?_⟩
  have handed : _ = c4 :=
    congrArg Prod.snd ((outcome_emitExternalCall _ _ _ _ c1).symm.trans emitted)
  have code : c2.code = c1.code ++ (Instr.handsOver handle decl.signature.result.isFloat
      (tagged (arguments.zip decl.signature.params) held).reverse
        ++ [.callExternal decl.signature.hostResult]) := by
    rw [relocks.code, ← handed, append_nil]
    rfl
  have written := later.code
  rw [code] at written
  simpa using written

end

namespace Instr
variable {i : Instr}

theorem getElem?_handsOver (handle : Word) (floatResult : Bool)
    (loaded : List (Register × Word)) (k : Nat) : (handsOver handle floatResult loaded)[3 + 2 * k]?
      = loaded[k]?.map fun place => .push place.1 := by
  have pairs : (loaded.flatMap fun place => [Instr.push place.1, .pushImm place.2])[2 * k]?
      = loaded[k]?.map fun place => .push place.1 := by
    induction loaded generalizing k with
    | nil => simp
    | cons place rest ih =>
      cases k with
      | zero => rfl
      | succ k => exact ih k
  rw [handsOver, getElem?_append_right (by simp)]
  simpa using pairs

theorem length_handsOver (handle : Word) (floatResult : Bool) (loaded : List (Register × Word)) :
    (handsOver handle floatResult loaded).length = 3 + 2 * loaded.length := by
  simp only [handsOver, length_append, length_flatMap, length_cons, length_nil,
    map_const', sum_replicate, smul_eq_mul]
  omega

theorem isPush_of_handsOver (member : i ∈ handsOver handle floatResult loaded) :
    i.isPush = true := by
  simp only [handsOver, mem_append, mem_cons, mem_flatMap, not_mem_nil, or_false] at member
  obtain (rfl | rfl | rfl) | ⟨place, _, rfl | rfl⟩ := member <;> rfl

theorem dest?_of_isPush (is_push : i.isPush = true) : i.dest? = none := by
  cases i <;> first | rfl | cases is_push

end Instr

theorem argumentTag_ne_zero (ty : Ty) : argumentTag ty ≠ 0 := by
  unfold argumentTag
  split
  · decide
  · split <;> decide

def HostCall.ofLoaded (handle : Word) (floatResult : Bool) (params : List Ty) (words : List Word) :
    HostCall where
  arguments := (params.map argumentTag).zip words
  resultTag := if floatResult then 1 else 0
  handle := handle

theorem words_ofLoaded (handle : Word) (floatResult : Bool) {registers : Register → Word}
    (holds : ∀ place ∈ held, registers place.1 = place.2) :
    ((Instr.handsOver handle floatResult (tagged entries held).reverse).map
      (Instr.pushedWord registers)).reverse
      = (HostCall.ofLoaded handle floatResult (entries.map Prod.snd)
        (held.map Prod.snd)).words := by
  have pairs : (tagged entries held).flatMap (fun place => [place.2, registers place.1])
      = (((entries.map Prod.snd).map argumentTag).zip (held.map Prod.snd)).flatMap
        (fun argument => [argument.1, argument.2]) := by
    induction entries generalizing held with
    | nil => rfl
    | cons entry rest ih =>
      cases held with
      | nil => rfl
      | cons place later =>
        rw [List.forall_mem_cons] at holds
        have tail := ih holds.2
        simp only [tagged] at tail
        simp [tagged, holds.1, tail]
  rw [HostCall.words, HostCall.ofLoaded, ← pairs, Instr.handsOver, List.map_append,
    List.reverse_append, List.map_flatMap, List.reverse_flatMap, List.reverse_reverse]
  rfl

theorem Spares.dest?_ne {q : Register} {i : Instr} (spares : Spares q c c')
    (written : c'.code.toList <+: code) (after : c.code.size ≤ k) (before : k < c'.code.size)
    (fetched : code[k]? = some i) : i.dest? ≠ some q := by
  obtain ⟨run, is_run, spared⟩ := spares
  obtain ⟨rest, rfl⟩ := written
  rw [getElem?_append_left (by simpa using before), is_run,
    getElem?_append_right (by simpa using after)] at fetched
  exact spared i (mem_of_getElem? fetched)

/-- An argument is loaded into a register, which no instruction changes before it is pushed. -/
def Processor.Carries (hw : Hardware) (l : Link) (code : List Instr) (q : Processor)
    (v : ValueId) (ty : Ty) (w : Word) (push : Nat) : Prop :=
  ∃ r c c' s, Runs (copyConverted v (.register r) ty) c () c' ∧ q.pc ≤ c.code.size
    ∧ c'.code.toList <+: code
    ∧ Reaches hw l code q ⟨s, q.sp, c'.code.size⟩ ∧ s.registers r = w
    ∧ c'.code.size ≤ push ∧ code[push]? = some (.push r)
    ∧ ∀ k i, c'.code.size ≤ k → k < push → code[k]? = some i → i.dest? ≠ some r

namespace BringsAll
variable {rest : List Instr} (brings : BringsAll hw p content frame entries held c s c' s')
  (split : code = c'.code.toList ++ Instr.handsOver handle floatResult
    (tagged entries held).reverse ++ rest)
include brings split

theorem carries {q : Processor} (start : q.pc ≤ c.code.size)
    (reached : ∀ {c1 s1}, Travels hw p frame c s c1 s1 → c1.code.toList <+: code →
      Processor.Reaches hw l code q ⟨s1, q.sp, c1.code.size⟩)
      (listed : entries[i]? = some (v, ty)) :
    ∃ r w, held[i]? = some (r, w) ∧ Conveys hw p content c' v ty (.word w)
      ∧ Processor.Carries hw l code q v ty w
      (c'.code.size + (3 + 2 * (entries.length - 1 - i))) := by
  set pushes := Instr.handsOver handle floatResult (tagged entries held).reverse with is_pushes
  have below : i < entries.length := (List.getElem?_eq_some_iff.mp listed).1
  have length : (tagged entries held).length = entries.length := by simp [tagged, brings.length]
  have all_pushed : pushes.length = 3 + 2 * entries.length := by
    rw [is_pushes, Instr.length_handsOver, List.length_reverse, length]
  have early : c'.code.toList <+: code := ⟨_, by rw [split, List.append_assoc]⟩
  obtain ⟨r, w, c1, s1, c2, s2, at_held, before, brought, after⟩ := brings.each listed
  obtain ⟨c3, copied, same⟩ := brought.copied
  have until_load : c2.code.toList <+: code := after.leads.code.trans early
  have size := after.leads.code.length_le
  have size' := before.leads.code.length_le
  simp only [Array.length_toList] at size size'
  refine ⟨r, w, at_held, brought.conveys.after after.leads (after.retains (v := v)), r,
    _, c3, s2, copied, start.trans size', ?_⟩
  rw [← same]
  refine ⟨until_load, reached (before.trans brought.toTravels) until_load,
    brought.loaded, by omega, ?_, ?_⟩
  · have at_tagged : (tagged entries held).reverse[entries.length - 1 - i]?
        = some (r, argumentTag ty) := by
      rw [List.getElem?_reverse (by omega), length,
        show entries.length - 1 - (entries.length - 1 - i) = i by omega,
        tagged, List.getElem?_zipWith, listed, at_held]
    have after_loads : c'.code.size + (3 + 2 * (entries.length - 1 - i)) - c'.code.toList.length
        = 3 + 2 * (entries.length - 1 - i) := by simp
    rw [split, List.append_assoc, List.getElem?_append_right (by simp), after_loads,
      List.getElem?_append_left (by omega), is_pushes, Instr.getElem?_handsOver, at_tagged]
    rfl
  · intro k j from_load to_push at_k
    have pushes_spare : Spares r c' (c'.appended pushes) := by
      refine ⟨pushes, by simp [Context.appended], fun i member => ?_⟩
      rw [Instr.dest?_of_isPush (Instr.isPush_of_handsOver member)]
      simp
    have code_size : (c'.appended pushes).code.size = c'.code.size + pushes.length := by
      simp [Context.appended, ← Array.length_toList]
    refine ((after.spares brought.locked).trans pushes_spare).dest?_ne ⟨rest, ?_⟩ from_load ?_ at_k
    · simpa [Context.appended] using split.symm
    · omega

theorem hands_over (few : entries.length ≤ 24) :
    ∃ q, Processor.Advances hw l code ⟨s', sp, c'.code.size⟩ q
    ∧ q.pc = c'.code.size + (3 + 2 * entries.length)
      ∧ ∀ call bottom, HostCall.Pops q.state.memory q.sp call bottom ↔
        call = HostCall.ofLoaded handle floatResult (entries.map Prod.snd) (held.map Prod.snd)
        ∧ bottom = sp := by
  set pushes := Instr.handsOver handle floatResult (tagged entries held).reverse with is_pushes
  have all_pushed : pushes.length = 3 + 2 * entries.length := by
    rw [is_pushes, Instr.length_handsOver]
    simp [tagged, brings.length]
  let q := Processor.pushAll ⟨s', sp, c'.code.size⟩ (pushes.map (pushedWord s'.registers))
  have piled : q.state.memory.Stacks sp q.sp _ :=
    Processor.stacks_pushAll ⟨s', sp, c'.code.size⟩ (by rw [length_map, all_pushed]; omega)
  rw [words_ofLoaded handle floatResult brings.holds] at piled
  refine ⟨q, Processor.advances_pushes split fun i member => Instr.isPush_of_handsOver member,
    by simp [q, all_pushed], fun call bottom => HostCall.pops_iff (fun argument member => ?_) piled⟩
  obtain ⟨ty, _, is_tag⟩ := mem_map.mp (of_mem_zip member).1
  rw [← is_tag]
  exact argumentTag_ne_zero ty

end BringsAll

namespace Module

/-- The host recovers a call exactly. The code of the call runs up to the instruction that calls the
host, and a host that pops what is then on the stack gets the arguments in order, each as a word
that is the argument converted to the type of its parameter, with the tag of that type, and then the
tag of the result and the handle, down to where the stack was before. Each argument comes from a
register that is not changed from the end of its load to its push. -/
theorem host_recovers_call {options : Options} {file : String}
    {calls : List ModuleCall} {f : FunctionId} {decl : Declaration} {handle : Word}
    {caller : FrameId} {c c' : Context} {hw : Hardware} {l : Link} {p : Placement} {sp : Word}
    {content : ValueId → Content} {s : MachineState} {arguments : List ValueId}
    {result : Option ValueId} {code : List Instr} (known : (build options file calls).function? f
      = some decl) (external : decl.linkage = .external handle)
    (regular : ∀ ty ∈ decl.signature.params, ty.Regular)
    (passable : ∀ {v ty}, (v, ty) ∈ arguments.zip decl.signature.params →
      Passable hw content caller c v ty)
    (run : Runs (lowerCall (build options file calls).functions (.direct f) arguments result)
      c () c')
    (stands : Stands hw l p content caller sp 0 c s c'.extent) (written : c'.code.toList <+: code) :
    ∃ c₁ words q, Leads c c₁ ∧ Processor.Advances hw l code ⟨s, sp, c.code.size⟩ q
      ∧ code[q.pc]? = some
        (.callExternal (if decl.signature.result.isFloat then .float 0 else .int 0))
      ∧ q.pc < c'.code.size ∧ arguments.length = decl.signature.params.length
      ∧ words.length = arguments.length
      ∧ (∀ call bottom, HostCall.Pops q.state.memory q.sp call bottom ↔
          call = ⟨(decl.signature.params.map fun ty =>
              if ty.isPointer then 3 else if ty.isFloat then 2 else 1).zip words,
            if decl.signature.result.isFloat then 1 else 0, handle⟩ ∧ bottom = sp)
      ∧ ∀ (i : Nat) argument ty w, arguments[i]? = some argument →
        decl.signature.params[i]? = some ty → words[i]? = some w →
          Conveys hw p content c₁ argument ty (.word w)
            ∧ ∃ push, push + 2 * (i + 1) = q.pc
              ∧ Processor.Carries hw l code ⟨s, sp, c.code.size⟩ argument ty w push := by
  simp only [lowerCall, runs_bind] at run
  obtain ⟨found, c, looked_up, run⟩ := run
  obtain ⟨known', rfl⟩ := runs_findFunction looked_up
  obtain rfl : decl = found := Option.mem_unique known known'
  simp only [external] at run
  obtain ⟨hostable, _⟩ :=
    (vetted_build options file calls).hosted known (by simp [Declaration.isExternal, external])
  obtain ⟨held, c₀, s₀, c₁, s₁, arity, executes₀, stays₀, leads₀, brings, handed⟩ :=
    lowerExternalCall_brings
    (stands.consistent.tracks stands.sized) stands.housed hostable regular passable
      stands.separate run
  have typed : (arguments.zip decl.signature.params).map Prod.snd = decl.signature.params :=
    List.map_snd_zip arity.ge
  have count : (arguments.zip decl.signature.params).length = arguments.length := by simp [arity]
  have few := hostable.length_le
  obtain ⟨rest, is_code⟩ := handed.trans written
  have split : code = c₁.code.toList ++ Instr.handsOver handle decl.signature.result.isFloat
      (tagged (arguments.zip decl.signature.params) held).reverse
        ++ (.callExternal decl.signature.hostResult :: rest) := by simpa using is_code.symm
  have length : (Instr.handsOver handle decl.signature.result.isFloat
      (tagged (arguments.zip decl.signature.params) held).reverse).length
        = 3 + 2 * arguments.length := by
    rw [Instr.length_handsOver]
    simp [tagged, brings.length, arity]
  have reached {c₂ : Context} {s₂ : MachineState} (before : Travels hw p caller c₀ s₀ c₂ s₂)
      (early : c₂.code.toList <+: code) :
      Processor.Reaches hw l code ⟨s, sp, c.code.size⟩ ⟨s₂, sp, c₂.code.size⟩ :=
    ((stays₀.trans before.stays).executes
      (executes₀.trans before.executes) stands.agrees).reaches early
  have to_pushes := reached brings.travels ⟨_, by rw [split, List.append_assoc]⟩
  obtain ⟨q, pushed, at_call, pops⟩ :
    ∃ q, Processor.Advances hw l code ⟨s₁, sp, c₁.code.size⟩ q ∧ _ ∧ _ :=
    brings.hands_over split (by omega)
  rw [count] at at_call
  rw [typed] at pops
  refine ⟨c₁, held.map Prod.snd, q, leads₀.trans brings.travels.leads,
    to_pushes.advances.trans pushed, ?_, ?_, arity, by simp [brings.length, arity], pops, ?_⟩
  · rw [at_call, ← length, split, List.getElem?_append_right (by simp)]
    simp [Signature.hostResult]
  · have inside := handed.length_le
    simp only [List.length_append, length, Array.length_toList, List.length_singleton] at inside
    omega
  · intro i argument ty w at_argument at_ty at_word
    have below : i < arguments.length := (List.getElem?_eq_some_iff.mp at_argument).1
    have listed : (arguments.zip decl.signature.params)[i]? = some (argument, ty) := by
      simp [List.zip, List.getElem?_zipWith, at_argument, at_ty]
    have started : c.code.size ≤ c₀.code.size := by simpa using leads₀.code.length_le
    obtain ⟨r, w', at_held, conveys, carries⟩ := brings.carries split started reached listed
    obtain rfl : w' = w := by simpa [at_held] using at_word
    rw [count] at carries
    exact ⟨conveys, _, by omega, carries⟩

def reportCalls : List ModuleCall :=
  [.declare "main" ⟨[], .void⟩ .internal 1,
    .declare "report" ⟨[.int 1 false, .float 8, .pointer .i64, .i64], .float 8⟩ (.external 7) 2,
    .define ⟨0⟩ [] 3
      [.constant (.int 4 true) (-1), .floatConstant (.float 8) 5, .constant (.pointer .i64) 4096,
      .constant .i64 0, .call ⟨1⟩ [⟨0⟩, ⟨1⟩, ⟨2⟩, ⟨3⟩], .ret none] true]

def reportModule : Module := build {} "report.c" reportCalls

def reportCaller : Declaration := reportModule.functions[0]!

def reportFunction : Declaration := reportModule.functions[1]!

def reportCall : Context :=
  (outcome (lowerPrologue reportCaller ⟨0⟩)
    { reportModule.context with currentFrame := some ⟨0⟩ }).2

def reportCalled : Context :=
  (outcome (lowerCall reportModule.functions (.direct ⟨1⟩) [⟨0⟩, ⟨1⟩, ⟨2⟩, ⟨3⟩] (some ⟨4⟩))
    reportCall).2

def reportLink : Link := ⟨⟨#[8], 0⟩, 0, 0, fun _ => 0, fun _ => 0⟩

def reportTypes : List Ty := [.int 4 true, .float 8, .pointer .i64, .i64]

def reportWords : List Word := [-1, 5, 4096, 0]

def reportContent (v : ValueId) : Content := .word (reportWords.getD v.index 0)

def reportState : MachineState := ⟨fun _ => 0, fun _ => 0⟩

theorem nowhere_reportCall : ∀ entry ∈ reportCall.values.toList,
    entry.2.position = none ∧ entry.2.home? = none := by decide +kernel

theorem report_stands :
    Stands .zero reportLink (reportLink.placement 4096) reportContent ⟨0⟩ 4096 0 reportCall
    reportState reportCalled.extent := by
  have inside {area : Area} {i : Nat} (small : i < reportCalled.extent area) :
      area = .frame ⟨0⟩ ∧ i < 8 := by
    have sizes : reportCalled.frames.sizes = #[8] := by decide +kernel
    obtain ⟨⟨index⟩, size, rfl, known, below⟩ :=
      Context.frame_of_extent (by decide +kernel) (by decide +kernel) small
    rw [sizes] at known
    cases index with
    | zero => exact ⟨rfl, by simp_all⟩
    | succ n => simp at known
  refine .of_nowhere (by decide +kernel) (by decide +kernel) nowhere_reportCall (by decide +kernel)
    ⟨rfl, rfl, rfl, rfl, rfl, rfl⟩ ?_ fun _ _ _ _ below => absurd below (Nat.not_lt_zero _)
  intro a b i j hi hj same
  obtain ⟨rfl, below⟩ := inside hi
  obtain ⟨rfl, below'⟩ := inside hj
  exact ⟨rfl, Placement.offset_eq_of_address_eq (by omega) (by omega) same⟩

theorem value_of_reportArgument (small : i < 4) (found : reportCall.values.get? ⟨i⟩ = some value) :
    value.ty = reportTypes.getD i .void ∧ value.constant? = some (reportWords.getD i 0) := by
  have all : ∀ i < 4, (reportCall.values.get? ⟨i⟩).map (fun value => (value.ty, value.constant?))
      = some (reportTypes.getD i .void, some (reportWords.getD i 0)) := by decide +kernel
  simpa [found] using all i small

theorem report_passable
    (member : (v, ty) ∈ [⟨0⟩, ⟨1⟩, ⟨2⟩, ⟨3⟩].zip reportFunction.signature.params) :
    Passable .zero reportContent ⟨0⟩ reportCall v ty := by
  have all : ∀ pair ∈ [(⟨0⟩ : ValueId), ⟨1⟩, ⟨2⟩, ⟨3⟩].zip reportFunction.signature.params,
      pair.1.index < 4
      ∧ (reportTypes.getD pair.1.index .void).assignable pair.2 = true
      ∧ (reportTypes.getD pair.1.index .void).Regular
      ∧ (reportTypes.getD pair.1.index .void).isScalar = true := by decide +kernel
  obtain ⟨small, assignable, regular, scalar⟩ := all (v, ty) member
  have canonical (i : Nat) (below : i < 4) :
      Hardware.zero.Canonical (reportTypes.getD i .void) (reportWords.getD i 0) := by
    interval_cases i <;> exact rfl
  refine .of_constant rfl fun found => ?_
  obtain ⟨is_ty, constant⟩ := value_of_reportArgument small found
  rw [is_ty]
  exact ⟨nowhere_reportCall _ (ValueStore.mem_toList.mpr found), constant, scalar,
    canonical _ small, assignable, regular⟩

/-- The host gets 255 for the constant -1, and the last argument is zero although its tag is not. -/
theorem host_recovers_report : ∃ q, Processor.Advances .zero reportLink reportCalled.code.toList
      ⟨reportState, 4096, reportCall.code.size⟩ q
      ∧ reportCalled.code.toList[q.pc]? = some (.callExternal (.float 0))
    ∧ ∀ call bottom, HostCall.Pops q.state.memory q.sp call bottom ↔
        call = ⟨[(1, 255), (2, 5), (3, 4096), (1, 0)], 1, 7⟩ ∧ bottom = 4096 := by
  have known : reportModule.function? ⟨1⟩ = some reportFunction := by decide +kernel
  have external : reportFunction.linkage = .external 7 := by decide +kernel
  have regular : ∀ ty ∈ reportFunction.signature.params, ty.Regular := by decide +kernel
  have run : Runs
      (lowerCall reportModule.functions (.direct ⟨1⟩) [⟨0⟩, ⟨1⟩, ⟨2⟩, ⟨3⟩] (some ⟨4⟩)) reportCall ()
      reportCalled := Prod.ext (by decide +kernel) rfl
  obtain ⟨c₁, words, q, leads, advances, fetched, _, _, length, pops, each⟩ :=
    host_recovers_call known external regular
    report_passable run report_stands (List.prefix_refl _)
  have params :
      reportFunction.signature = ⟨[.int 1 false, .float 8, .pointer .i64, .i64], .float 8⟩ := by
    decide +kernel
  rw [params] at fetched pops each
  have conveyed (i : Nat) (ty : Ty) (small : i < 4)
      (at_argument : [(⟨0⟩ : ValueId), ⟨1⟩, ⟨2⟩, ⟨3⟩][i]? = some ⟨i⟩)
      (at_ty : [Ty.int 1 false, .float 8, .pointer .i64, .i64][i]? = some ty) (w : Word)
        (at_word : words[i]? = some w)
      (plain : (reportTypes.getD i .void).isArray = false) :
      .word w = Hardware.zero.converted (reportTypes.getD i .void) ty
        (.word (reportWords.getD i 0)) := by
    obtain ⟨⟨value, found, is_word⟩, _⟩ := each i _ ty w at_argument at_ty at_word
    obtain ⟨early, found', ages⟩ := leads.before found
    rwa [ages.ty, (value_of_reportArgument small found').1, plain] at is_word
  obtain _ | ⟨w₀, _ | ⟨w₁, _ | ⟨w₂, _ | ⟨w₃, _ | ⟨w₄, rest⟩⟩⟩⟩⟩ := words <;> simp at length
  have first : Content.word w₀ = .word 255 := conveyed 0 _ (by decide) rfl rfl w₀ rfl rfl
  have second : Content.word w₁ = .word 5 := conveyed 1 _ (by decide) rfl rfl w₁ rfl rfl
  have third : Content.word w₂ = .word 4096 := conveyed 2 _ (by decide) rfl rfl w₂ rfl rfl
  have fourth : Content.word w₃ = .word 0 := conveyed 3 _ (by decide) rfl rfl w₃ rfl rfl
  cases first
  cases second
  cases third
  cases fourth
  exact ⟨q, advances, fetched, pops⟩

end Module

end RegisterBackend
