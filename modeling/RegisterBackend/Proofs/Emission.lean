import RegisterBackend.Proofs.Assembly
import RegisterBackend.Proofs.Spending

/-!
What lowering may write. It is followed which float registers hold numbers of single precision: an
instruction *conveys* what is known before it to what is known after it. `Writes` says that a step
keeps to all this.
-/
namespace RegisterBackend

open RegisterFile Discipline Value

variable {c c' c1 : Context} {into : Option Register} {v : ValueId} {P p : Prop}
  {binds binds' : Bool} {r dst : Register} {f : Value → Value} {i : Instr} {id : ConstantId}
  {remarks : List Instr} {slot : StackSlot} {ty : Ty}

def Ty.isSingle (ty : Ty) : Bool := ty.isFloat && ty.size == 4

theorem Ty.isSingle_iff : ty.isSingle = true ↔ ty.isFloat = true ∧ ty.size = 4 := by
  simp [isSingle]

theorem Ty.bank_of_isSingle (single : ty.isSingle = true) : ty.bank = .float := by
  simp [bank, (isSingle_iff.mp single).1]

theorem Ty.bank_of_isPointer (pointer : ty.isPointer = true) : ty.bank = .int := by
  rw [bank, if_neg]
  intro float
  cases (not_isPointer_of_isFloat float).symm.trans pointer

namespace Signature

def Carries (s : Signature) (r : Register) : Prop :=
  ∃ ty, (ty, .register r) ∈ s.params.zip (CallLayout.ofSignature s).arguments ∧ ty.isSingle = true

def Yields (s : Signature) (r : Register) : Prop :=
  (CallLayout.ofSignature s).result = .register r ∧ s.result.isSingle = true

end Signature

/-- What is known where control comes from elsewhere than from the instruction before. -/
structure Flow where
  /-- Precision is followed at all. -/
  precise : Prop
  /-- The patterns that are numbers of single precision. -/
  single : Word → Prop
  /-- Length of the code up to which `base` is what is known. -/
  since : Nat
  base : Register → Prop
  /-- The registers that hold singles whenever control comes to the label. -/
  arrives : LabelId → Register → Prop
  /-- The registers that hold singles after a call of the label. -/
  returns : LabelId → Register → Prop
  /-- The signatures with which the instruction of that number may call. -/
  site : Nat → Signature → Prop
  /-- The functions of the host. -/
  host : Declaration → Prop

/-- Which float registers hold singles after the instruction, if `known` do before it. -/
def Instr.conveys (F : Flow) (index : Nat) (known : Register → Prop) : Instr → Register → Prop
  | .label id, r => F.arrives id r
  | .movImm dst imm, r => if r = dst then ∃ bits, imm = .value bits ∧ F.single bits else known r
  | .mov dst src, r => if r = dst then known src else known r
  | .floatAlu _ dst _, r => r ≠ dst ∧ known r
  | .floatNarrow dst, r => r = dst ∨ known r
  | .intToFloat dst _ _, r => r ≠ dst ∧ known r
  | .loadStack dst _ size, r => if r = dst then size = 4 else known r
  | .loadPtr dst _ size, r => if r = dst then size = 4 else known r
  | .jump _, _ => True
  | .ret, _ => True
  | .halt, _ => True
  | .call target, r => F.returns target r
  | .callPtr _, r => ∃ sig, F.site index sig ∧ sig.Yields r
  | .callExternal _, r => ∃ sig, F.site index sig ∧ sig.Yields r
  | _, r => known r

/-- Which float registers hold singles after the code, which is given backwards. -/
def Flow.knows (F : Flow) : List Instr → Register → Prop
  | [], r => F.base r
  | i :: before, r =>
    if before.length < F.since then F.base r else i.conveys F before.length (F.knows before) r

/-- How a host function is handed its arguments: the registers with their tags, last first. -/
def Instr.handsOver (handle : Word) (floatResult : Bool) (loaded : List (Register × Word)) :
    List Instr :=
  [.pushImm handle, .pushImm (if floatResult then 1 else 0), .pushImm 0]
    ++ loaded.flatMap fun (r, tag) => [.push r, .pushImm tag]

def Signature.hostResult (s : Signature) : Register :=
  if s.result.isFloat then .float 0 else .int 0

/-- The instruction after the code `before` relies on nothing that is not known there. -/
def Instr.Sound (F : Flow) (before : List Instr) : Instr → Prop
  | .jump target => ∀ r, F.arrives target r → F.knows before.reverse r
  | .jumpIf _ target _ => ∀ r, F.arrives target r → F.knows before.reverse r
  | .call target => ∀ r, F.arrives target r → F.knows before.reverse r
  | .callPtr _ => ∃ sig, F.site before.length sig
      ∧ ∀ r, F.precise → sig.Carries r → F.knows before.reverse r
  | .callExternal dst => ∃ decl handle loaded earlier, F.host decl ∧ decl.linkage = .external handle
      ∧ F.site before.length decl.signature ∧ dst = decl.signature.hostResult
      ∧ before = earlier ++ handsOver handle decl.signature.result.isFloat loaded
      ∧ List.Forall₂ (fun argument ty => argument.1.bank = ty.bank ∧ argument.2 = Gen.argumentTag ty
          ∧ (F.precise → ty.isSingle = true → F.knows before.reverse argument.1))
          loaded decl.signature.params.reverse
  | _ => True

structure Scope extends Flow where
  types : ValueId → Ty
  constants : ValueId → Option Word
  /-- The labels that the function jumps to. -/
  targets : LabelId → Prop
  /-- The labels at which functions start. -/
  starts : LabelId → Prop
  widths : ∀ {v}, precise → (types v).isFloat = true → (types v).size = 4 ∨ (types v).size = 8
  rounded : ∀ {v bits}, precise → constants v = some bits → (types v).isSingle = true → single bits

def Register.IsInt (r : Register) : Prop := r.bank = .int ∧ r.inRange = true

def Register.IsFloat (r : Register) : Prop := r.bank = .float ∧ r.inRange = true

def StackSlot.Known (c : Context) (slot : StackSlot) : Prop :=
  ∀ frame, slot.frame? = some frame → frame.index < c.frames.sizes.size

def ConstantId.Known (c : Context) (id : ConstantId) : Prop := 0 < c.extent (.blob id)

def Position.Known (c : Context) : Position → Prop
  | .stack slot => slot.Known c
  | .constant id => id.Known c
  | _ => True

def Imm.Known (S : Scope) (c : Context) : Imm → Prop
  | .value _ => True
  | .constantAddress id => id.Known c
  | .labelAddress label => S.starts label

/-- The instruction has registers of the right banks and names only what exists. -/
def Instr.Fine (S : Scope) (c : Context) : Instr → Prop
  | .comment _ => True
  | .location _ _ frame => ∀ id, frame = some id → id.index < c.frames.sizes.size
  | .movImm dst imm => dst.inRange = true ∧ imm.Known S c
  | .mov dst src => dst.inRange = true ∧ src.inRange = true ∧ dst.bank = src.bank
  | .alu _ dst src => dst.IsInt ∧ src.IsInt
  | .aluImm _ dst imm => dst.IsInt ∧ imm.Known S c
  | .cmp lhs rhs _ => lhs.IsInt ∧ rhs.IsInt
  | .cmpImm lhs _ _ => lhs.IsInt
  | .neg r => r.IsInt
  | .not r => r.IsInt
  | .mask r _ => r.IsInt
  | .signExtend r _ => r.IsInt
  | .floatAlu _ dst src => dst.IsFloat ∧ src.IsFloat
  | .floatNeg r => r.IsFloat
  | .floatNarrow r => r.IsFloat
  | .floatCmp dst lhs rhs _ => dst.IsInt ∧ lhs.IsFloat ∧ rhs.IsFloat
  | .intToFloat dst src _ => dst.IsFloat ∧ src.IsInt
  | .floatToInt dst src _ => dst.IsInt ∧ src.IsFloat
  | .loadStack dst slot _ => dst.inRange = true ∧ slot.Known c
  | .storeStack src slot _ => src.inRange = true ∧ slot.Known c
  | .loadPtr dst ptr _ => dst.inRange = true ∧ ptr.IsInt
  | .storePtr ptr src _ => ptr.IsInt ∧ src.inRange = true
  | .leaStack dst slot => dst.IsInt ∧ slot.Known c
  | .copyStack dst src _ => dst.Known c ∧ src.Known c
  | .copyMem dst src _ => dst.IsInt ∧ src.IsInt
  | .runtimeParam dst _ => dst.IsInt
  | .push r => r.inRange = true
  | .pushImm _ => True
  | .jump target => S.targets target
  | .jumpIf r target _ => r.IsInt ∧ S.targets target
  | .call target => S.starts target
  | .callPtr r => r.IsInt
  | .callExternal dst => dst.inRange = true
  -- What functions begin and end with is written by no rule of an operation.
  | .label _ | .data _ _ | .stackAdjust _ | .ret | .halt => False

section
variable {S : Scope}

theorem StackSlot.Known.mono (known : slot.Known c) (leads : Leads c c') : slot.Known c' := by
  intro frame is_frame
  rw [leads.frames]
  exact known frame is_frame

theorem ConstantId.Known.mono (known : id.Known c) (leads : Leads c c') : id.Known c' :=
  Nat.lt_of_lt_of_le known (leads.extent _)

theorem Position.Known.mono {place : Position} (known : place.Known c) (leads : Leads c c') :
    place.Known c' := by
  cases place with
  | register r => trivial
  | stack slot => exact StackSlot.Known.mono known leads
  | static offset => trivial
  | constant id => exact ConstantId.Known.mono known leads

theorem Imm.Known.mono {imm : Imm} (known : imm.Known S c) (leads : Leads c c') :
    imm.Known S c' := by
  cases imm with
  | value bits => trivial
  | constantAddress id => exact ConstantId.Known.mono known leads
  | labelAddress label => exact known

theorem Instr.Fine.mono (fine : i.Fine S c) (leads : Leads c c') : i.Fine S c' := by
  cases i with
  | location name pos frame =>
    intro id is_frame
    rw [leads.frames]
    exact fine id is_frame
  | movImm dst imm | aluImm op dst imm | loadStack dst slot size | storeStack src slot size
    | leaStack dst slot => exact ⟨fine.1, fine.2.mono leads⟩
  | copyStack dst src size => exact ⟨fine.1.mono leads, fine.2.mono leads⟩
  | _ => exact fine

end

def Context.Knows (F : Flow) (c : Context) (r : Register) : Prop := F.knows c.code.toList.reverse r

/-- What is known of the register once the instruction is written. -/
abbrev Context.Gains (S : Scope) (c : Context) (i : Instr) (r : Register) : Prop :=
  i.conveys S.toFlow c.code.size (c.Knows S.toFlow) r

/-- The instruction is written, and what is known is what it conveys. -/
abbrev Context.Pushes (S : Scope) (c : Context) (i : Instr) (c' : Context) : Prop :=
  c' = c.pushed i ∧ ∀ r, c'.Knows S.toFlow r ↔ c.Gains S i r

theorem Context.knows_pushed {F : Flow} (begun : F.since ≤ c.code.size) (i : Instr) (r : Register) :
    (c.pushed i).Knows F r ↔ i.conveys F c.code.size (c.Knows F) r := by
  have later : ¬c.code.size < F.since := by omega
  simp only [Knows, pushed, Array.toList_push, List.reverse_append, List.reverse_singleton,
    List.singleton_append, Flow.knows, List.length_reverse, Array.length_toList, later, ↓reduceIte]
  rfl

theorem Instr.conveys_of_isRemark {F : Flow} (remark : i.isRemark = true) (index : Nat)
    (known : Register → Prop) (r : Register) : i.conveys F index known r ↔ known r := by
  cases i with
  | comment text => rfl
  | location name pos frame => rfl
  | _ => cases remark

theorem Context.knows_appended {F : Flow} (begun : F.since ≤ c.code.size)
    (only : ∀ i ∈ remarks, i.isRemark = true) (r : Register) :
    (c.appended remarks).Knows F r ↔ c.Knows F r := by
  induction remarks generalizing c with
  | nil => simp [appended]
  | cons i rest ih =>
    rw [List.forall_mem_cons] at only
    have step : c.appended (i :: rest) = (c.pushed i).appended rest := by simp [appended, pushed]
    rw [step, ih (by simp only [pushed, Array.size_push]; omega) only.2, knows_pushed begun,
      Instr.conveys_of_isRemark only.1]

def Scope.Clean (S : Scope) (c : Context) : (before : List Instr) → List Instr → Prop
  | _, [] => True
  | before, i :: rest => i.Fine S c ∧ i.Sound S.toFlow before ∧ S.Clean c (before ++ [i]) rest

namespace Scope.Clean
variable {S : Scope} {before first second : List Instr}

theorem mono (clean : S.Clean c before first) (leads : Leads c c') : S.Clean c' before first := by
  induction first generalizing before with
  | nil => trivial
  | cons i rest ih => exact ⟨clean.1.mono leads, clean.2.1, ih clean.2.2⟩

theorem append (clean : S.Clean c before first) (clean' : S.Clean c (before ++ first) second) :
    S.Clean c before (first ++ second) := by
  induction first generalizing before with
  | nil => simpa using clean'
  | cons i rest ih => exact ⟨clean.1, clean.2.1, ih clean.2.2 (by simpa using clean')⟩

end Scope.Clean

namespace Context

/-- Values are what they are said to be, and registers hold only values of their bank. -/
structure Banked (types : ValueId → Ty) (constants : ValueId → Option Word)
    (c : Context) : Prop where
  typed : ∀ {v value}, c.values.get? v = some value → value.ty = types v
    ∧ value.constant? = constants v
  seated : ∀ {r v}, c.registers.occupant? r = some v → (types v).bank = r.bank

section
variable {types : ValueId → Ty} {constants : ValueId → Option Word}

theorem Banked.modify (banked : c.Banked types constants) (values : c'.values = c.values.modify v f)
    (kept : ∀ value, (f value).ty = value.ty ∧ (f value).constant? = value.constant?)
    (seated : ∀ {r w}, c'.registers.occupant? r = some w → (types w).bank = r.bank) :
    c'.Banked types constants where
  typed {w value'} found' := by
    rw [values, ValueStore.get?_modify] at found'
    split at found'
    · next same =>
      obtain ⟨value, found, rfl⟩ := Option.map_eq_some_iff.mp found'
      rw [same, (kept value).1, (kept value).2]
      exact banked.typed found
    · exact banked.typed found'
  seated := seated

theorem Banked.aside (banked : c.Banked types constants) (same : c.Aside c') :
    c'.Banked types constants where
  typed {v value'} found' := by
    obtain ⟨value, found, spot⟩ := same.before found'
    rw [← spot.1, ← constant?_eq_of_nature spot.2.1]
    exact banked.typed found
  seated occupied := banked.seated ((same.occupant _).symm.trans occupied)

end

theorem Hands.frame_lt {frame : FrameId} {size : Nat} {place : Position}
    (hands : c.Hands size place c') (in_frame : place.slot?.bind StackSlot.frame? = some frame) :
    frame.index < c.frames.sizes.size := by
  cases hands with
  | slot current known fits =>
    obtain rfl := Option.some.inj in_frame
    exact (Array.getElem?_eq_some_iff.mp known).1
  | static after => cases in_frame
  | blob => cases in_frame

theorem Hands.known {size : Nat} (hands : c.Hands size (.constant id) c') : id.Known c' := by
  cases hands with
  | blob =>
    have filled : 0 < alignUp (max size 1) wordSize :=
      Nat.lt_of_lt_of_le (by omega) (le_alignUp (max size 1) (by simp [wordSize]))
    simpa [ConstantId.Known, extent, ConstantPool.get?] using filled

end Context

/-- The frames and blobs that values are in, or belong into, exist. -/
def Zoning.known : Zoning where
  allows extent frames _
    | .stack slot => ∀ frame, slot.frame? = some frame → frame.index < frames
    | .constant id => 0 < extent (.blob id)
    | _ => True
  mono {_ _ _ _ place} grows known := by
    cases place with
    | constant id => exact Nat.lt_of_lt_of_le known (grows _)
    | _ => exact known
  register := trivial
  hands {c c' ty place} _ hands := by
    cases place with
    | stack slot => exact fun frame in_frame => hands.aside.frames ▸ hands.frame_lt in_frame
    | constant id => exact hands.known
    | _ => trivial

namespace Discipline

def banked (types : ValueId → Ty) (constants : ValueId → Option Word) : Discipline where
  holds := Context.Banked types constants
  aside held same := held.aside same
  seat {c r v value} held _ found bank _ range _ := by
    refine held.modify rfl (fun _ => ⟨rfl, rfl⟩) fun {q w} occupied => ?_
    rw [occupant?_setOccupant _ _ _ range] at occupied
    split at occupied
    · next same =>
      obtain rfl := Option.some.inj occupied
      rw [same, ← (held.typed found).1, bank]
    · exact held.seated occupied
  unseat held _ occupied _ := held.modify rfl (fun _ => ⟨rfl, rfl⟩) fun occupied' =>
    held.seated (occupant?_emptied (inRange_of_occupant? occupied) occupied')
  spill {c c1 r v w value slot size} held _ _ occupied _ hands := by
    refine (held.aside hands.aside).modify rfl (fun _ => ⟨rfl, rfl⟩) fun {q u} occupied' => ?_
    have before := occupant?_emptied (inRange_of_occupant? occupied) occupied'
    exact held.seated ((hands.aside.occupant q).symm.trans before)
  move {c v source target} held occupied range range' bank _ := by
    refine held.modify rfl (fun _ => ⟨rfl, rfl⟩) fun {q u} occupied' => ?_
    rw [occupant?_setOccupant _ _ _ range'] at occupied'
    split at occupied'
    · next same =>
      obtain rfl := Option.some.inj occupied'
      rw [same, bank]
      exact held.seated occupied
    · exact held.seated (occupant?_emptied range occupied')
  rehome held _ _ _ := held.modify rfl (fun _ => ⟨rfl, rfl⟩) held.seated
  grant {c c1 v value named home} held _ _ _ _ hands := by
    have held1 := held.aside hands.aside
    refine held1.modify rfl (fun value => ?_) held1.seated
    cases h : value.kind <;> simp [mapNamed, h, Value.constant?]
  emit held _ _ := ⟨held.typed, held.seated⟩
  remark held _ := ⟨held.typed, held.seated⟩

def both (D E : Discipline) : Discipline where
  holds c := D.holds c ∧ E.holds c
  ready c slot := D.ready c slot ∧ E.ready c slot
  filled c slot := D.filled c slot ∧ E.filled c slot
  admits v := D.admits v ∧ E.admits v
  ready_mono leads ready := ⟨D.ready_mono leads ready.1, E.ready_mono leads ready.2⟩
  filled_mono leads filled := ⟨D.filled_mono leads filled.1, E.filled_mono leads filled.2⟩
  ready_position held found pos :=
    ⟨D.ready_position held.1 found pos, E.ready_position held.2 found pos⟩
  ready_home held found home := ⟨D.ready_home held.1 found home, E.ready_home held.2 found home⟩
  admits_known held found known fits :=
    ⟨D.admits_known held.1 found known fits, E.admits_known held.2 found known fits⟩
  aside held same := ⟨D.aside held.1 same, E.aside held.2 same⟩
  seat held admitted found bank unowned range empty :=
    ⟨D.seat held.1 admitted.1 found bank unowned range empty,
      E.seat held.2 admitted.2 found bank unowned range empty⟩
  unseat held found occupied pos :=
    ⟨D.unseat held.1 found occupied pos, E.unseat held.2 found occupied pos⟩
  spill held found unnamed occupied own hands :=
    ⟨D.spill held.1 found unnamed occupied own hands,
      E.spill held.2 found unnamed occupied own hands⟩
  move held occupied range range' bank empty :=
    ⟨D.move held.1 occupied range range' bank empty, E.move held.2 occupied range range' bank empty⟩
  rehome held found home wide := ⟨D.rehome held.1 found home wide, E.rehome held.2 found home wide⟩
  grant held found named fresh memory hands :=
    ⟨D.grant held.1 found named fresh memory hands, E.grant held.2 found named fresh memory hands⟩
  emit held code allowed := ⟨D.emit held.1 code fun slot reads => (allowed slot reads).1,
    E.emit held.2 code fun slot reads => (allowed slot reads).2⟩
  remark held notes := ⟨D.remark held.1 notes, E.remark held.2 notes⟩
  filled_store held := ⟨D.filled_store held.1, E.filled_store held.2⟩
  filled_buffer held last := ⟨D.filled_buffer held.1 last, E.filled_buffer held.2 last⟩

def sorted (types : ValueId → Ty) (constants : ValueId → Option Word) : Discipline :=
  owned.both ((banked types constants).both (zoned .known))

end Discipline

/-- For which float registers a step keeps what is known. -/
inductive Care where
  | all
  | locked
  | none

structure Mode where
  care : Care
  /-- The register that is being loaded. It may not hold what its occupant is. -/
  into : Option Register
  /-- Values may get registers. -/
  binds : Bool

namespace Mode

/-- Only integer registers are written, and registers are only emptied. -/
def quiet (into : Option Register) : Mode := ⟨.all, into, false⟩

def calm : Mode := ⟨.locked, none, false⟩

def loading (dst : Register) : Mode := ⟨.locked, some dst, false⟩

def working : Mode := ⟨.none, none, true⟩

def Spares (m : Mode) (c : Context) (r : Register) : Prop :=
  match m.care with
  | .all => True
  | .locked => m.into ≠ some r ∧ c.registers.isLocked r = true
  | .none => False

end Mode

/-- Precision is followed, and the value has single precision. -/
def Scope.Tracks (S : Scope) (v : ValueId) : Prop :=
  S.precise ∧ ((S.types v).isSingle = true ∨ ∃ bits, S.constants v = some bits ∧ S.single bits)

def Scope.discipline (S : Scope) : Discipline := .sorted S.types S.constants

structure Context.Sorted (S : Scope) (into : Option Register) (c : Context) : Prop where
  held : S.discipline.holds c
  begun : S.since ≤ c.code.size
  singles : ∀ {r v}, r.bank = .float → into ≠ some r → c.registers.occupant? r = some v →
    S.Tracks v → c.Knows S.toFlow r

namespace Context.Sorted
variable {S : Scope} {value : Value} {place : Position}

section
variable (sorted : c.Sorted S into)
include sorted

theorem owned : c.Owned := sorted.held.1

theorem banked : c.Banked S.types S.constants := sorted.held.2.1

theorem place_known (found : c.values.get? v = some value)
    (here : value.position = some place ∨ value.home? = some place) : place.Known c := by
  have known := sorted.held.2.2.allowed found here
  cases place with
  | _ => exact known

theorem register_of (found : c.values.get? v = some value)
    (pos : value.position = some (.register r)) :
    c.registers.occupant? r = some v ∧ r.bank = value.ty.bank ∧ r.inRange = true := by
  have occupied := sorted.owned.owned found pos
  refine ⟨occupied, ?_, inRange_of_occupant? occupied⟩
  rw [(sorted.banked.typed found).1, sorted.banked.seated occupied]

theorem after (leads : Leads c c') (held : S.discipline.holds c') (shrinks : c.Sheds c')
    (kept : ∀ {r}, r.bank = .float → into ≠ some r → (∃ v, c'.registers.occupant? r = some v) →
      c.Knows S.toFlow r → c'.Knows S.toFlow r) : c'.Sorted S into where
  held := held
  begun := sorted.begun.trans leads.code.length_le
  singles float elsewhere occupied tracks :=
    kept float elsewhere ⟨_, occupied⟩ (sorted.singles float elsewhere (shrinks occupied) tracks)

theorem aside (same : c.Aside c') : c'.Sorted S into where
  held := S.discipline.aside sorted.held same
  begun := by
    rw [same.code]
    exact sorted.begun
  singles float elsewhere occupied tracks := by
    rw [Context.Knows, same.code]
    exact sorted.singles float elsewhere ((same.occupant _).symm.trans occupied) tracks

theorem withLock (r : Register) (locked : Bool) : (c.withLock r locked).Sorted S into where
  held := holds_withLock sorted.held r locked
  begun := sorted.begun
  singles float elsewhere occupied :=
    sorted.singles float elsewhere (by simpa [Context.withLock] using occupied)

end

theorem settled (sorted : c.Sorted S (some dst)) (empty : c.registers.occupant? dst = none) :
    c.Sorted S none where
  held := sorted.held
  begun := sorted.begun
  singles float _ occupied := by
    refine sorted.singles float ?_ occupied
    rintro ⟨⟩
    cases empty.symm.trans occupied

theorem owing (sorted : c.Sorted S none) (into : Option Register) : c.Sorted S into where
  held := sorted.held
  begun := sorted.begun
  singles float _ := sorted.singles float nofun

end Context.Sorted

structure Wrote (S : Scope) (m : Mode) (c c' : Context) : Prop where
  leads : Leads c c'
  locked : c'.registers.locked = c.registers.locked
  code : ∃ added, c'.code.toList = c.code.toList ++ added ∧ S.Clean c' c.code.toList added
  spares : ∀ {r}, r.bank = .float → m.Spares c r → c.Knows S.toFlow r → c'.Knows S.toFlow r
  shrinks : m.binds = false → ∀ {r v}, c'.registers.occupant? r = some v →
    c.registers.occupant? r = some v

namespace Wrote
variable {S : Scope} {m : Mode}

theorem isLocked (wrote : Wrote S m c c') (r : Register) :
    c'.registers.isLocked r = c.registers.isLocked r := by
  rw [RegisterFile.isLocked, RegisterFile.isLocked, wrote.locked]

theorem of_same (m : Mode) (leads : Leads c c') (locked : c'.registers.locked = c.registers.locked)
    (code : c'.code = c.code) (shrinks : c.Sheds c') : Wrote S m c c' where
  leads := leads
  locked := locked
  code := ⟨[], by simp [code], trivial⟩
  spares _ _ known := by rwa [Context.Knows, code]
  shrinks _ := shrinks

theorem refl (m : Mode) (c : Context) : Wrote S m c c := of_same m (.refl c) rfl rfl id

theorem trans (first : Wrote S m c c1) (second : Wrote S m c1 c') : Wrote S m c c' where
  leads := first.leads.trans second.leads
  locked := second.locked.trans first.locked
  code := by
    obtain ⟨added, same, clean⟩ := first.code
    obtain ⟨more, same', clean'⟩ := second.code
    refine ⟨added ++ more, by rw [same', same, List.append_assoc], ?_⟩
    exact (clean.mono second.leads).append (same ▸ clean')
  spares {r} float spared known := by
    refine second.spares float ?_ (first.spares float spared known)
    revert spared
    unfold Mode.Spares
    split
    · exact id
    · rw [first.isLocked]
      exact id
    · exact id
  shrinks calm _ _ occupied := first.shrinks calm (second.shrinks calm occupied)

theorem lax {care : Care} (wrote : Wrote S ⟨care, into, binds⟩ c c') {care' : Care}
    (less : care = .all ∨ care' = care ∨ care' = .none) (binding : binds = true → binds' = true) :
    Wrote S ⟨care', into, binds'⟩ c c' where
  leads := wrote.leads
  locked := wrote.locked
  code := wrote.code
  spares float spared known := by
    refine wrote.spares float ?_ known
    rcases less with rfl | rfl | rfl
    · trivial
    · exact spared
    · cases spared
  shrinks calm := wrote.shrinks (by cases binds <;> simp_all)

theorem holding (inner : Wrote S m (c.withLock r true) c1) :
    Wrote S m c (c1.withLock r (c.registers.isLocked r)) where
  leads := (Leads.withLock c r true).trans (inner.leads.trans (.withLock _ _ _))
  locked := Context.locked_restored inner.locked
  code := by
    obtain ⟨added, same, clean⟩ := inner.code
    exact ⟨added, same, clean.mono (.withLock _ _ _)⟩
  spares {q} float spared known := by
    refine inner.spares float ?_ known
    revert spared
    unfold Mode.Spares
    split
    · exact id
    · exact fun spared => ⟨spared.1, isLocked_lock r spared.2⟩
    · exact id
  shrinks calm {q v} occupied := by
    have before := inner.shrinks calm (r := q) (v := v)
      (by simpa only [Context.withLock, occupant?_setLocked] using occupied)
    simpa only [Context.withLock, occupant?_setLocked] using before

theorem calmed (wrote : Wrote S (.loading dst) c c') (unlocked : c.registers.isLocked dst = false) :
    Wrote S .calm c c' where
  leads := wrote.leads
  locked := wrote.locked
  code := wrote.code
  spares {r} float spared := by
    refine wrote.spares float ⟨?_, spared.2⟩
    rintro ⟨⟩
    cases unlocked.symm.trans spared.2
  shrinks := wrote.shrinks

end Wrote

/-- The step keeps to what may be written, and leaves what `Q` says. -/
def Gives {α : Type} (S : Scope) (m : Mode) (c : Context) (x : Gen α) (Q : α → Context → Prop) :
    Prop :=
  ∀ a c', c.Sorted S m.into → Gen.Runs x c a c' → Wrote S m c c' ∧ c'.Sorted S m.into ∧ Q a c'

def Writes {α : Type} (S : Scope) (m : Mode) (c : Context) (x : Gen α) : Prop :=
  Gives S m c x fun _ _ => True

section
open Gen
variable {α β ι : Type} {S : Scope} {m : Mode} {Q : α → Context → Prop} {R : β → Context → Prop}
  {x block : Gen α}

theorem gives_of (step : c.Sorted S m.into → Gives S m c x Q) : Gives S m c x Q :=
  fun a c' sorted run => step sorted a c' sorted run

theorem Gives.imp {Q' : α → Context → Prop} (gives : Gives S m c x Q)
    (weaker : ∀ {a c'}, Wrote S m c c' → c'.Sorted S m.into → Q a c' → Q' a c') :
    Gives S m c x Q' := by
  intro a c' sorted run
  obtain ⟨wrote, sorted', q⟩ := gives _ _ sorted run
  exact ⟨wrote, sorted', weaker wrote sorted' q⟩

theorem Gives.writes (gives : Gives S m c x Q) : Writes S m c x := gives.imp fun _ _ _ => trivial

theorem gives_pure (a : α) (q : Q a c) : Gives S m c (pure a) Q := by
  intro b c' sorted run
  obtain ⟨rfl, rfl⟩ := runs_pure.mp run
  exact ⟨.refl _ _, sorted, q⟩

theorem gives_pure_bind (a : α) {f : α → Gen β} (rest : Gives S m c (f a) R) :
    Gives S m c (pure a >>= f) R := by
  rwa [pure_bind]

theorem gives_inconsistent (cause : Inconsistency) : Gives S m c (inconsistent cause : Gen α) Q :=
  fun _ _ _ run => (runs_inconsistent.mp run).elim

/-- The first step may keep to more than the whole. -/
theorem gives_after {m' : Mode} {f : α → Gen β} (first : Gives S m' c x Q) (same : m'.into = m.into)
    (lax : ∀ {c1}, Wrote S m' c c1 → Wrote S m c c1)
    (rest : ∀ {a c1}, Wrote S m' c c1 → Q a c1 → Gives S m c1 (f a) R) :
    Gives S m c (x >>= f) R := by
  intro b c' sorted run
  obtain ⟨a, c1, run1, run2⟩ := runs_bind.mp run
  obtain ⟨wrote1, sorted1, q⟩ := first _ _ (same ▸ sorted) run1
  obtain ⟨wrote2, sorted2, r⟩ := rest wrote1 q _ _ (same ▸ sorted1) run2
  exact ⟨(lax wrote1).trans wrote2, sorted2, r⟩

theorem gives_bind {f : α → Gen β} (first : Gives S m c x Q)
    (rest : ∀ {a c1}, Wrote S m c c1 → Q a c1 → Gives S m c1 (f a) R) : Gives S m c (x >>= f) R :=
  gives_after first rfl id rest

theorem gives_seq {f : α → Gen β} (first : Writes S m c x)
    (rest : ∀ {a c1}, Gives S m c1 (f a) R) : Gives S m c (x >>= f) R :=
  gives_bind first fun _ _ => rest

theorem Gives.lax {care : Care} (gives : Gives S ⟨care, into, binds⟩ c x Q) {care' : Care}
    (less : care = .all ∨ care' = care ∨ care' = .none) (binding : binds = true → binds' = true) :
    Gives S ⟨care', into, binds'⟩ c x Q := by
  intro a c' sorted run
  obtain ⟨wrote, sorted', q⟩ := gives _ _ sorted run
  exact ⟨wrote.lax less binding, sorted', q⟩

theorem Gives.of_quiet (gives : Gives S (.quiet m.into) c x Q) : Gives S m c x Q :=
  gives.lax (.inl rfl) nofun

theorem Gives.of_calm (gives : Gives S .calm c x Q) : Gives S .working c x Q :=
  gives.lax (.inr (.inr rfl)) nofun

theorem gives_quietly {f : α → Gen β} (first : Gives S (.quiet m.into) c x Q)
    (rest : ∀ {a c1}, Wrote S (.quiet m.into) c c1 → Q a c1 → Gives S m c1 (f a) R) :
    Gives S m c (x >>= f) R :=
  gives_after first rfl (·.lax (.inl rfl) nofun) rest

theorem gives_calmly {f : α → Gen β} (first : Gives S .calm c x Q)
    (rest : ∀ {a c1}, Wrote S .calm c c1 → Q a c1 → Gives S .working c1 (f a) R) :
    Gives S .working c (x >>= f) R :=
  gives_after first rfl (·.lax (.inr (.inr rfl)) nofun) rest

theorem Gives.also {P : α → Context → Prop} (gives : Gives S m c x Q)
    (always : ∀ {a c'}, Runs x c a c' → P a c') : Gives S m c x fun a c' => Q a c' ∧ P a c' := by
  intro a c' sorted run
  obtain ⟨wrote, sorted', q⟩ := gives a c' sorted run
  exact ⟨wrote, sorted', q, always run⟩

theorem gives_throw_then (fault : Fault) {f : α → Gen β} : Gives S m c (throw fault >>= f) R :=
  fun _ _ _ run => (runs_throw.mp (runs_bind.mp run).choose_spec.choose_spec.1).elim

theorem gives_unsupported_then (cause : Unsupported) {f : α → Gen β} :
    Gives S m c (unsupported cause >>= f) R :=
  fun _ _ _ run => (runs_unsupported.mp (runs_bind.mp run).choose_spec.choose_spec.1).elim

theorem gives_get {f : Context → Gen β} (rest : Gives S m c (f c) R) :
    Gives S m c (get >>= f) R := rest

theorem gives_valueOf {f : Value → Gen β}
    (rest : ∀ {value}, c.values.get? v = some value → Gives S m c (f value) R) :
    Gives S m c (valueOf v >>= f) R := by
  intro b c' sorted run
  obtain ⟨value, found, run⟩ := runs_valueOf_bind.mp run
  exact rest found _ _ sorted run

theorem gives_occupantOf {f : Option ValueId → Gen β}
    (rest : Gives S m c (f (c.registers.occupant? r)) R) : Gives S m c (occupantOf r >>= f) R := by
  intro b c' sorted run
  exact rest _ _ sorted (runs_occupantOf_bind.mp run).2

theorem gives_discard (step : Gives S m c x Q) :
    Gives S m c (discard x) fun _ c' => ∃ a, Q a c' := by
  intro u c' sorted run
  obtain ⟨a, run⟩ := runs_discard.mp run
  obtain ⟨wrote, sorted', q⟩ := step _ _ sorted run
  exact ⟨wrote, sorted', a, q⟩

theorem writes_discard (step : Writes S m c x) : Writes S m c (discard x) :=
  (gives_discard step).writes

theorem gives_ite [Decidable p] {y : Gen α} (yes : p → Gives S m c x Q)
    (no : ¬p → Gives S m c y Q) : Gives S m c (if p then x else y) Q := by
  by_cases h : p
  · simpa [h] using yes h
  · simpa [h] using no h

theorem gives_ite_then [Decidable p] {x : Gen Unit} {f : Unit → Gen α}
    (gives : Gives S m c ((if p then x else pure ()) >>= f) Q) :
    Gives S m c (if p then x >>= f else f ()) Q := by
  by_cases h : p
  · simpa [h] using gives
  · simpa [h] using gives

theorem gives_keeping (quiet : Writes S (.quiet m.into) c x)
    (known : r.bank = .float → P → c.Knows S.toFlow r) :
    Gives S m c x fun _ c' => r.bank = .float → P → c'.Knows S.toFlow r :=
  Gives.of_quiet (quiet.imp fun wrote _ _ float p => wrote.spares float trivial (known float p))

theorem writes_forIn {f : ι → PUnit → Gen (ForInStep PUnit)} {xs : List ι}
    (round : ∀ x u c, Writes S m c (f x u)) (u : PUnit) : Writes S m c (forIn xs u f) :=
  forIn_rule (P := Writes S m) (fun _ _ => gives_pure _ trivial)
    (fun c x u _ rest => gives_seq (round x u c) (rest _ _)) xs c u

/-- The contexts differ in locks only, and what was locked is. -/
structure Context.Locks (c c1 : Context) : Prop where
  same : c1 = { c with registers := c1.registers }
  occupant : ∀ r, c1.registers.occupant? r = c.registers.occupant? r
  locked : ∀ {r}, c.registers.isLocked r = true → c1.registers.isLocked r = true

theorem Context.locks_withLock (c : Context) (r : Register) : c.Locks (c.withLock r true) where
  same := rfl
  occupant _ := by simp [withLock]
  locked := isLocked_lock r

theorem Context.Locks.values (locks : c.Locks c1) : c1.values = c.values := by
  rw [locks.same]

theorem Context.Locks.code (locks : c.Locks c1) : c1.code = c.code := by
  rw [locks.same]

theorem Context.Locks.leads (locks : c.Locks c1) : Leads c c1 := by
  rw [locks.same]
  exact .of_same rfl rfl (List.prefix_refl _) rfl rfl rfl rfl

theorem Context.Sorted.locks (sorted : c.Sorted S into) (locks : c.Locks c1) :
    c1.Sorted S into := by
  refine sorted.aside
    ⟨locks.code, fun v => by rw [locks.values], locks.occupant, fun area => ?_, ?_⟩
  · rw [locks.same]
    exact le_rfl
  · rw [locks.same]

theorem gives_holding (inner : Gives S m (c.withLock r true) block Q)
    (stable : ∀ {a c1} q locked, Q a c1 → Q a (c1.withLock q locked)) :
    Gives S m c (holding r block) Q := by
  intro a c' sorted run
  obtain ⟨c1, block_run, rfl⟩ := runs_holding.mp run
  obtain ⟨wrote, sorted1, q⟩ := inner _ _ (sorted.withLock r true) block_run
  exact ⟨wrote.holding, sorted1.withLock r _, stable _ _ q⟩

theorem writes_holding (inner : Writes S m (c.withLock r true) block) :
    Writes S m c (holding r block) := gives_holding inner fun _ _ _ => trivial

theorem gives_holdingRegisterOf (inner : ∀ {c1}, c.Locks c1 → Gives S m c1 block Q)
    (stable : ∀ {a c1} q locked, Q a c1 → Q a (c1.withLock q locked)) :
    Gives S m c (holdingRegisterOf v block) Q := by
  refine gives_valueOf fun {value} _ => ?_
  cases value.register? with
  | none => exact inner ⟨rfl, fun _ => rfl, id⟩
  | some r => exact gives_holding (inner (c.locks_withLock r)) stable

theorem writes_holdingRegisterOf (inner : ∀ {c1}, c.Locks c1 → Writes S m c1 block) :
    Writes S m c (holdingRegisterOf v block) :=
  gives_holdingRegisterOf inner fun _ _ _ => trivial

theorem clean_of_notes (known : Zoning.known.Holds c) (only : ∀ i ∈ remarks, c.Notes i)
    (before : List Instr) : S.Clean c before remarks := by
  induction remarks generalizing before with
  | nil => trivial
  | cons i rest ih =>
    rw [List.forall_mem_cons] at only
    obtain ⟨notes, only⟩ := only
    cases i with
    | comment text => exact ⟨trivial, trivial, ih only _⟩
    | location name pos frame =>
      obtain ⟨rfl, v, value, found, at_position⟩ := notes.place rfl
      refine ⟨fun frame in_frame => ?_, trivial, ih only _⟩
      obtain ⟨slot, rfl, in_frame⟩ : ∃ slot, pos = .stack slot ∧ slot.frame? = some frame := by
        cases pos <;> simp_all [Position.slot?]
      exact known.allowed found (.inl at_position) frame in_frame
    | _ => cases notes.remark

theorem writes_still (walks : S.discipline.Walks c x)
    (notes : ∀ {a c'}, Runs x c a c' → ∃ remarks : List Instr, (∀ i ∈ remarks, c'.Notes i)
      ∧ c'.code = c.code ++ remarks)
      (shrinks : ∀ {a c'}, Runs x c a c' → ∀ {r v}, c'.registers.occupant? r = some v →
      c.registers.occupant? r = some v) : Writes S (.quiet into) c x := by
  intro a c' sorted run
  obtain ⟨held, leads, locked⟩ := walks a c' sorted.held run
  obtain ⟨remarks, only, code⟩ := notes run
  have known {r : Register} : c'.Knows S.toFlow r ↔ c.Knows S.toFlow r := by
    rw [← Context.knows_appended sorted.begun (fun i member => (only i member).remark) r,
      Context.Knows, Context.Knows, Context.appended, code]
  exact ⟨⟨leads, locked, ⟨remarks, by simp [code], clean_of_notes held.2.2 only _⟩,
    fun _ _ => known.mpr, fun _ => shrinks run⟩, sorted.after leads held (shrinks run)
      fun _ _ _ => known.mpr,
    trivial⟩

theorem writes_mute (walks : S.discipline.Walks c x)
    (mute : ∀ {a c'}, Runs x c a c' → c'.code = c.code
      ∧ c.Sheds c') :
      Writes S (.quiet into) c x :=
  writes_still walks (fun run => ⟨[], by simp, by simp [(mute run).1]⟩) fun run => (mute run).2

theorem writes_updateValue (spot : ∀ value : Value, (f value).spot = value.spot)
    (ages : ∀ value : Value, value.Ages (f value)) :
    Writes S (.quiet into) c (updateValue v f) := by
  refine writes_mute (walks_updateValue spot ages) fun run => ?_
  obtain ⟨_, rfl⟩ := runs_updateValue.mp run
  exact ⟨rfl, id⟩

theorem writes_setDirty (v : ValueId) (dirty : Bool) :
    Writes S (.quiet into) c (updateValue v (·.setDirty dirty)) :=
  writes_updateValue (fun value => value.spot_setDirty dirty) fun value => value.ages_setDirty dirty

theorem writes_escape (v : ValueId) :
    Writes S (.quiet into) c (updateValue v (·.setEscaped true)) := by
  refine writes_updateValue (fun value => value.spot_setEscaped true) fun value => ?_
  cases h : value.kind <;>
    constructor <;> simp [setEscaped, mapNamed, h, ValueKind.nature, Value.home?,
      named?, isEscaped]

theorem writes_touch (v : ValueId) : Writes S (.quiet into) c (touch v) := by
  refine writes_mute (walks_touch v) fun run => ?_
  obtain ⟨_, rfl⟩ := runs_touch.mp run
  exact ⟨rfl, id⟩

theorem writes_consume (v : ValueId) : Writes S (.quiet into) c (consume v) := by
  refine writes_mute (walks_consume v) fun run => ?_
  obtain ⟨_, _, _, rfl⟩ := runs_consume run
  exact ⟨rfl, id⟩

theorem writes_record (f : Statistics → Statistics) : Writes S (.quiet into) c (record f) := by
  refine writes_mute (walks_record f) fun run => ?_
  obtain rfl := runs_record.mp run
  exact ⟨rfl, id⟩

theorem writes_setLocation (loc : Location) : Writes S (.quiet into) c (setLocation loc) := by
  refine writes_mute (walks_setLocation loc) fun run => ?_
  obtain rfl := runs_setLocation.mp run
  exact ⟨rfl, id⟩

theorem writes_comment (text : String) : Writes S (.quiet into) c (comment text) := by
  refine writes_still (walks_comment text) (fun run => ?_) fun run => ?_
  · obtain ⟨remarks, only, rfl⟩ := runs_comment run
    exact ⟨remarks, fun i member => (only i member).of_values rfl, rfl⟩
  · obtain ⟨remarks, only, rfl⟩ := runs_comment run
    exact id

theorem writes_markLocation (v : ValueId) : Writes S (.quiet into) c (markLocation v) := by
  refine writes_still (walks_markLocation v) (fun run => ?_) fun run => ?_
  · obtain ⟨remarks, only, rfl⟩ := runs_markLocation run
    exact ⟨remarks, fun i member => (only i member).of_values rfl, rfl⟩
  · obtain ⟨remarks, only, rfl⟩ := runs_markLocation run
    exact id

theorem gives_allocateSlot (size : Nat) :
    Gives S (.quiet into) c (allocateSlot size) fun slot c' => slot.Known c' := by
  have writes : Writes S (.quiet into) c (allocateSlot size) := by
    refine writes_mute (walks_allocateSlot size) fun run => ?_
    have aside := (runs_allocateSlot run).aside
    exact ⟨aside.code, fun occupied => (aside.occupant _).symm.trans occupied⟩
  intro slot c' sorted run
  obtain ⟨wrote, sorted', _⟩ := writes _ _ sorted run
  refine ⟨wrote, sorted', fun frame in_frame => ?_⟩
  rw [wrote.leads.frames]
  exact (runs_allocateSlot run).frame_lt in_frame

theorem gives_homeOf (v : ValueId) :
    Gives S (.quiet into) c (homeOf v) fun home c' => home.Known c' ∧ home.isRegister = false := by
  have writes : Writes S (.quiet into) c (homeOf v) := by
    refine writes_mute (walks_homeOf v) fun run => ?_
    obtain ⟨_, _, _, _, ⟨_, rfl⟩ | ⟨_, _, _, c1, hands, rfl⟩⟩ := runs_homeOf run
    · exact ⟨rfl, id⟩
    · exact ⟨hands.aside.code, fun occupied => (hands.aside.occupant _).symm.trans occupied⟩
  intro home c' sorted run
  obtain ⟨wrote, sorted', _⟩ := writes _ _ sorted run
  obtain ⟨value, found, is_home⟩ := home?_of_homeOf run
  exact ⟨wrote, sorted', sorted'.place_known found (.inr is_home),
    sorted'.owned.settled found is_home⟩

theorem gives_unbindRegister (r : Register) : Gives S (.quiet into) c (unbindRegister r)
      fun v c' => c.registers.occupant? r = some v ∧ c'.registers.occupant? r = none := by
  have writes : Writes S (.quiet into) c (unbindRegister r) := by
    refine writes_still (walks_unbindRegister r) (fun run => ?_) fun run => ?_
    · obtain ⟨_, _, _, _, _, _, remarks, only, rfl⟩ := runs_unbindRegister run
      exact ⟨remarks, only, rfl⟩
    · obtain ⟨_, _, _, range, _, _, _, _, rfl⟩ := runs_unbindRegister run
      exact occupant?_emptied range
  intro v c' sorted run
  obtain ⟨wrote, sorted', _⟩ := writes _ _ sorted run
  obtain ⟨_, _, occupied, range, _, _, _, _, rfl⟩ := runs_unbindRegister run
  exact ⟨wrote, sorted', occupied, by simp [occupant?_setOccupant, range]⟩

theorem writes_place (known : slot.Known c) :
    Writes S (.quiet into) c (setPosition v (some (.stack slot))) := by
  have walks : S.discipline.Walks c (setPosition v (some (.stack slot))) := by
    rintro u c' ⟨owned, banked, zoned⟩ run
    obtain ⟨⟨value, found⟩, rfl⟩ := runs_setPosition.mp run
    refine ⟨⟨?_, ?_, ?_⟩, .modify _ _ fun _ => ⟨rfl, rfl, id, id⟩, rfl⟩
    · exact owned.modify found rfl (fun home => owned.settled found home)
        (by rintro _ ⟨⟩) fun _ => id
    · exact banked.modify rfl (fun _ => ⟨rfl, rfl⟩) banked.seated
    · refine zoned.relocate rfl rfl rfl ?_
      rintro _ _ _ ⟨⟩
      exact known
  refine writes_mute walks fun run => ?_
  obtain ⟨_, rfl⟩ := runs_setPosition.mp run
  exact ⟨rfl, id⟩

theorem writes_rehome {value : Value} {home : Position} (found : c.values.get? v = some value)
    (is_home : value.home? = some home) (wide : value.ty.fitsRegister = false) :
    Writes S (.quiet into) c (setPosition v (some home)) := by
  refine writes_mute (walks_rehome found is_home wide) fun run => ?_
  obtain ⟨_, rfl⟩ := runs_setPosition.mp run
  exact ⟨rfl, id⟩

section
variable (code : i.isRemark = false) (fine : i.Fine S c)
  (sound : i.Sound S.toFlow c.code.toList)
include code fine sound

theorem gives_emit (kept : ∀ {r}, r.bank = .float →
      (m.into ≠ some r ∧ ∃ v, c.registers.occupant? r = some v) ∨ m.Spares c r →
      c.Knows S.toFlow r → c.Gains S i r) :
    Gives S m c (emit i) fun _ => c.Pushes S i := by
  intro u c' sorted run
  obtain rfl := runs_emit.mp run
  have held : S.discipline.holds (c.pushed i) :=
    S.discipline.emit sorted.held code fun _ _ => ⟨trivial, trivial, trivial⟩
  have known (r : Register) : (c.pushed i).Knows S.toFlow r ↔ _ :=
    Context.knows_pushed sorted.begun i r
  refine ⟨⟨.pushed _ _, rfl, ⟨[i], by simp [Context.pushed], ?_⟩, ?_, fun _ => id⟩, ?_, rfl, known⟩
  · exact ⟨fine.mono (.pushed _ _), sound, trivial⟩
  · exact fun float spared before => (known _).mpr (kept float (.inr spared) before)
  · exact sorted.after (.pushed _ _) held id
      fun float elsewhere occupied before =>
        (known _).mpr (kept float (.inl ⟨elsewhere, occupied⟩) before)

theorem gives_into (conveys : ∀ {r}, r ≠ dst → c.Knows S.toFlow r → c.Gains S i r) :
    Gives S (.loading dst) c (emit i) fun _ => c.Pushes S i := by
  refine gives_emit code fine sound fun {r} _ kept => conveys ?_
  rintro rfl
  exact kept.elim (fun kept => kept.1 rfl) fun kept => kept.1 rfl

theorem gives_silent (conveys : ∀ {r}, r.bank = .float → c.Knows S.toFlow r → c.Gains S i r) :
    Gives S (.quiet into) c (emit i) fun _ => c.Pushes S i :=
  gives_emit code fine sound fun float _ => conveys float

theorem writes_silent (conveys : ∀ {r}, r.bank = .float → c.Knows S.toFlow r → c.Gains S i r) :
    Writes S (.quiet into) c (emit i) :=
  (gives_silent code fine sound conveys).writes

end

theorem gives_bindRegister (single : r.bank = .float → S.Tracks v → c.Knows S.toFlow r) :
    Gives S .working c (bindRegister r v) fun _ c' => c'.registers.occupant? r = some v
      ∧ (∀ {q}, q ≠ r → c'.registers.occupant? q = c.registers.occupant? q)
      ∧ ∀ {q}, c.Knows S.toFlow q → c'.Knows S.toFlow q := by
  intro u c' sorted run
  have admitted : S.discipline.admits v := ⟨trivial, trivial, trivial⟩
  obtain ⟨held, leads, locked⟩ := walks_bindRegister admitted u c' sorted.held run
  obtain ⟨value, found, bank, _, range, empty, remarks, only, rfl⟩ := runs_bindRegister run
  set c' := { c with
    registers := c.registers.setOccupant r (some v)
    values := (c.values.modify v ({ · with position := some (.register r) })).touch v
    statistics := c.statistics.addRegister
    code := c.code ++ remarks }
  have known {q : Register} : c'.Knows S.toFlow q ↔ c.Knows S.toFlow q :=
    Context.knows_appended sorted.begun (fun i member => (only i member).remark) q
  have occupant {q : Register} :
      c'.registers.occupant? q = if q = r then some v else c.registers.occupant? q :=
    occupant?_setOccupant _ _ _ range
  refine ⟨⟨leads, locked, ⟨remarks, by simp [c'], clean_of_notes held.2.2 only _⟩, nofun, nofun⟩,
    ⟨held, sorted.begun.trans leads.code.length_le, ?_⟩, by simp [occupant],
    fun other => by simp [occupant, other], known.mpr⟩
  intro q w float _ occupied tracks
  rw [occupant] at occupied
  rw [known]
  split at occupied
  · next is_r =>
    obtain rfl := Option.some.inj occupied
    subst is_r
    exact single float tracks
  · exact sorted.singles float nofun occupied tracks

theorem writes_bindRegister (single : r.bank = .float → S.Tracks v → c.Knows S.toFlow r) :
    Writes S .working c (bindRegister r v) := (gives_bindRegister single).writes

end

end RegisterBackend
