import RegisterBackend.Proofs.Banks
import RegisterBackend.Proofs.Counting
import RegisterBackend.Proofs.StraightLine

/-!
How the code of a module is laid out: each function is its start label, what its operations wrote,
and its epilogue, and labels stand where what they promise is known.
-/
namespace RegisterBackend

open Gen Array Gives List ValueStore Declaration Value

variable {S : Scope} {decl : Declaration} {i : Instr} {m : Module}
  {site : Signature → Prop} {α : Type} {before added : List Instr} {c c' d : Context}
  {decls rest : List Declaration} {frame : FrameId} {label : LabelId} {operation : Operation}
  {r : Register} {range : Nat × Nat} {u : Unit}

/-- What is known from the end of some code on, which is given backwards. Calls are made with the
signatures `site` only. -/
def Flow.starting (F : Flow) (start : List Instr) (site : Signature → Prop) : Flow :=
  { F with since := start.length, base := F.knows start, site := fun _ => site }

/-- The scope of what is written from here on. Calls are made with the signatures `site` only. -/
def Scope.starting (S : Scope) (c : Context) (site : Signature → Prop) : Scope :=
  { S with toFlow := S.toFlow.starting c.code.toList.reverse site }

section
variable {F : Flow} {start : List Instr}

theorem Flow.knows_starting (r : Register) :
    (F.starting start site).knows start r ↔ F.knows start r := by
  cases start with
  | nil => exact Iff.rfl
  | cons i before => simp [knows, starting]

theorem Instr.conveys_of_starting {index : Nat} {known known' : Register → Prop}
    (sites : ∀ {sig}, site sig → F.site index sig) (kept : ∀ {r}, known r → known' r)
    (conveyed : i.conveys (F.starting start site) index known r) : i.conveys F index known' r := by
  have either {p a a' b b' : Prop} [Decidable p] (yes : a → a') (no : b → b')
      (given : if p then a else b) : if p then a' else b' := by
    split at given <;> simp_all
  cases i with
  | label id => exact conveyed
  | movImm dst imm => exact either id kept conveyed
  | mov dst src => exact either kept kept conveyed
  | floatAlu op dst src => exact ⟨conveyed.1, kept conveyed.2⟩
  | floatNarrow dst => exact conveyed.imp id kept
  | intToFloat dst src signed => exact ⟨conveyed.1, kept conveyed.2⟩
  | loadStack dst slot size | loadPtr dst ptr size => exact either id kept conveyed
  | jump target | ret | halt => trivial
  | call target => exact conveyed
  | callPtr ptr | callExternal dst =>
    obtain ⟨sig, at_site, yields⟩ := conveyed
    exact ⟨sig, sites at_site, yields⟩
  | _ => exact kept conveyed

theorem Flow.knows_of_starting (begun : F.since ≤ start.length)
    (sites : ∀ {index sig}, start.length ≤ index → index < start.length + added.length →
      site sig → F.site index sig) (known : (F.starting start site).knows (added ++ start) r) :
      F.knows (added ++ start) r := by
  induction added generalizing r with
  | nil => exact (knows_starting r).mp known
  | cons i added ih =>
    have late : ¬(added ++ start).length < start.length := by simp
    have late' : ¬(added ++ start).length < F.since := by simp only [length_append]; omega
    rw [cons_append, knows, if_neg late']
    rw [cons_append, knows, if_neg (by exact late)] at known
    refine Instr.conveys_of_starting (fun at_site => ?_) (fun known => ih ?_ known) known
    · refine sites ?_ ?_ at_site
      · simp
      · simp only [length_append, length_cons]
        omega
    · exact fun low high => sites low (by simp only [length_cons]; omega)

theorem Instr.Sound.of_starting (sites : ∀ {sig}, site sig → F.site before.length sig)
    (kept : ∀ {r}, (F.starting start site).knows before.reverse r → F.knows before.reverse r)
    (sound : i.Sound (F.starting start site) before) : i.Sound F before := by
  cases i with
  | jump target => exact fun r arrives => kept (sound r arrives)
  | jumpIf r target cond => exact fun r arrives => kept (sound r arrives)
  | call target => exact fun r arrives => kept (sound r arrives)
  | callPtr ptr =>
    obtain ⟨sig, at_site, carries⟩ := sound
    exact ⟨sig, sites at_site, fun r precise carried => kept (carries r precise carried)⟩
  | callExternal dst =>
    obtain ⟨decl, handle, loaded, earlier, host, linked, at_site, is_result, code, ready⟩ := sound
    refine ⟨decl, handle, loaded, earlier, host, linked, sites at_site, is_result,
      code, ready.imp ?_⟩
    exact fun argument ty fits =>
      ⟨fits.1, fits.2.1, fun precise single => kept (fits.2.2 precise single)⟩
  | _ => trivial

end

theorem Instr.fine_starting : i.Fine (S.starting c site) d ↔ i.Fine S d := by
  cases i <;> exact Iff.rfl

theorem Scope.Clean.of_starting (begun : S.since ≤ c.code.size) {first second : List Instr}
    (sites : ∀ {index sig}, c.code.size ≤ index →
      index < c.code.size + first.length + second.length → site sig → S.site index sig)
    (clean : (S.starting c site).Clean d (c.code.toList ++ first) second) :
    S.Clean d (c.code.toList ++ first) second := by
  induction second generalizing first with
  | nil => trivial
  | cons i rest ih =>
    obtain ⟨fine, sound, clean⟩ := clean
    refine ⟨Instr.fine_starting.mp fine, sound.of_starting (fun at_site => ?_)
      fun {r} known => ?_, ?_⟩
    · refine sites ?_ ?_ at_site
      · simp
      · simp
    · rw [List.reverse_append] at known ⊢
      refine Flow.knows_of_starting (by simpa using begun) (fun low high => ?_) known
      simp only [List.length_reverse, Array.length_toList] at low high
      exact sites low (by simp only [List.length_cons]; omega)
    · rw [List.append_assoc] at clean ⊢
      refine ih (fun low high => sites low ?_) clean
      simp only [List.length_append, List.length_cons, List.length_nil] at high ⊢
      omega

theorem Gives.started {x : Gen α} {a : α} {Q : α → Context → Prop}
    (gives : Gives (S.starting c site) .working c x Q) (sorted : c.Sorted S none)
    (run : Runs x c a c') (sites : ∀ {index sig}, c.code.size ≤ index → index < c'.code.size →
      site sig → S.site index sig) : Leads c c' ∧ c'.Sorted S none ∧ Q a c'
      ∧ (∃ added, c'.code.toList = c.code.toList ++ added ∧ S.Clean c' c.code.toList added)
      ∧ ∀ {r}, c'.Knows (S.starting c site).toFlow r → c'.Knows S.toFlow r := by
  have begun : S.since ≤ c.code.toList.reverse.length := by simpa using sorted.begun
  have sorted0 : c.Sorted (S.starting c site) none := by
    refine ⟨sorted.held, by simp [Scope.starting, Flow.starting],
      fun float elsewhere occupied tracks => ?_⟩
    exact (Flow.knows_starting _).mpr (sorted.singles float elsewhere occupied tracks)
  obtain ⟨wrote, sorted', q⟩ := gives a c' sorted0 run
  obtain ⟨added, same, clean⟩ := wrote.code
  have size : c'.code.size = c.code.size + added.length := by
    rw [← Array.length_toList, same, List.length_append, Array.length_toList]
  have known {r : Register} (known : c'.Knows (S.starting c site).toFlow r) :
      c'.Knows S.toFlow r := by
    rw [Context.Knows, same, List.reverse_append] at known ⊢
    refine Flow.knows_of_starting begun (fun low high => ?_) known
    simp only [List.length_reverse, Array.length_toList] at low high
    exact sites low (by omega)
  refine ⟨wrote.leads, ⟨sorted'.held, ?_, fun float elsewhere occupied tracks => ?_⟩, q,
    ⟨added, same, ?_⟩, known⟩
  · exact sorted.begun.trans wrote.leads.code.length_le
  · exact known (sorted'.singles float elsewhere occupied tracks)
  · have clean' : (S.starting c site).Clean c' (c.code.toList ++ []) added := by simpa using clean
    have moved := clean'.of_starting sorted.begun fun low high =>
      sites low (by simp only [List.length_nil] at high; omega)
    simpa using moved

namespace Ty

theorem suits_of_assignable {source ty : Ty} (assignable : source.assignable ty = true) :
    source.Suits ty := by
  cases decays : source.isArray && ty.isPointer with
  | true => exact .inl decays
  | false =>
    cases scalar : source.isScalar && ty.isScalar with
    | true => exact .inr (.inl scalar)
    | false => exact .inr (.inr (alike_of_assignable assignable scalar decays).bank)

theorem bank_eq_of_isFloat {a b : Ty} (same : a.isFloat = b.isFloat) : a.bank = b.bank := by
  rw [bank, bank, same]

theorem bank_of_isInteger {ty : Ty} (integer : ty.isInteger = true) : ty.bank = .int := by
  rw [bank, if_neg]
  intro float
  cases (not_isInteger_of_isFloat float).symm.trans integer

theorem isSingle_unqualified (ty : Ty) : ty.unqualified.isSingle = ty.isSingle := by
  rw [isSingle, isSingle, isFloat_unqualified, (alike_unqualified ty).size]

theorem not_isSingle_of_isVoid : {ty : Ty} → ty.isVoid = true → ty.isSingle = false
  | .void, _ => rfl
  | .const t, is_void => by
    rw [← isSingle_unqualified]
    exact (isSingle_unqualified t).trans (@not_isSingle_of_isVoid t is_void)

theorem bank_of_comparable {a b : Ty} (comparable : a.comparable b = true) : a.bank = b.bank := by
  simp only [Ty.comparable, Bool.or_eq_true, Bool.and_eq_true] at comparable
  obtain (⟨left, right⟩ | ⟨left, right⟩) | ⟨left, right⟩ := comparable
  · rw [bank_of_isInteger left, bank_of_isInteger right]
  · exact bank_eq_of_isFloat (left.trans right.symm)
  · rw [bank_of_isPointer left, bank_of_isPointer right]

end Ty

theorem BinaryOp.bank_of_result {op : BinaryOp} {lhs rhs ty : Ty} {divisor : Option Word}
    (legal : op.result lhs rhs divisor = .ok ty) : lhs.bank = rhs.bank := by
  unfold BinaryOp.result at legal
  split at legal
  · cases legal
  · split at legal
    · cases legal
    · next same => exact Ty.bank_eq_of_isFloat (by simpa using same)

def Operation.CallsWith (types : ValueId → Ty) (functions : Array Declaration) (sig : Signature) :
    Operation → Prop
  | .call callee _ _ => callee.signature? types functions = some sig
  | _ => False

namespace Module

def constant? (m : Module) (v : ValueId) : Option Word := (m.values.get? v).bind Value.constant?

theorem types_of_core {v : ValueId} {value : Value}
    (kept : ∃ value', m.values.get? v = some value' ∧ value'.core = value.core) :
    m.types v = value.ty ∧ m.constant? v = value.constant? := by
  obtain ⟨value', found, core⟩ := kept
  simp [types, constant?, found, ty_of_core core, constant?_of_core core]

theorem Vets.admitted {sig : Signature} (vets : m.Vets sig operation) :
    ∃ b made, BodyBuilder.Admits b operation made ∧ b.decl.signature = sig
      ∧ (∀ ⦃v value⦄, b.context.values.get? v = some value →
        m.types v = value.ty ∧ m.constant? v = value.constant?)
      ∧ (∀ ⦃value⦄, made = some value → m.types b.next = value.ty
        ∧ m.constant? b.next = value.constant?)
      ∧ ∀ ⦃f callee⦄, b.context.function? f = some callee →
        ∃ callee', m.function? f = some callee' ∧ callee'.face = callee.face := by
  obtain ⟨b, made, admits, same, keeps⟩ := vets
  refine ⟨b, made, admits, same, fun v value found => ?_, fun value is_made => ?_,
    fun f callee known => keeps.functions known⟩
  · refine types_of_core (keeps.values ?_)
    rw [get?_including, if_neg, found]
    rintro rfl
    simp [get?_next] at found
  · refine types_of_core (keeps.values ?_)
    rw [get?_including]
    exact (if_pos rfl).trans is_made

theorem Vets.legal (vets : m.Vets decl.signature operation) (types : S.types = m.types)
    (constants : S.constants = m.constant?)
    (goes : ∀ {label}, operation.goesTo? = some label → S.targets label ∧ ∀ r, ¬S.arrives label r)
    (sites : ∀ {sig}, operation.CallsWith m.types m.functions sig → ∀ index, S.site index sig)
    (pointer : ∀ {v}, decl.returnPointer = some v → (m.types v).isPointer = true) :
    operation.Legal S m.functions decl := by
  obtain ⟨b, made, admits, same, old, new, known⟩ := vets.admitted
  rw [← types, ← constants] at old new
  have passed {args : List ValueId} {params : List Ty} (passes : b.Passes args params) :
      Forall₂ (fun v ty => (S.types v).Suits ty) args params := by
    refine passes.imp ?_
    rintro v ty ⟨value, reads, assignable⟩
    rw [(old reads.1).1]
    exact Ty.suits_of_assignable assignable
  have returned {sig : Signature} {makes : Bool} {description : String}
      (is_made : made
        = if makes then some (.ofTemporary sig.result.unqualified description) else none)
      {v : ValueId} (is_result : (if makes then some b.next else none) = some v) :
      S.constants v = none ∧ ((S.types v).isSingle = true → sig.result.isSingle = true) := by
    cases makes with
    | false => cases is_result
    | true =>
      obtain rfl := Option.some.inj is_result
      obtain ⟨ty, varies⟩ := new is_made
      refine ⟨varies, fun single => ?_⟩
      rwa [ty, ofTemporary, Ty.isSingle_unqualified] at single
  have addresses {v : ValueId} {value : Value} {pointee : Ty}
      (found : b.context.values.get? v = some value)
      (legal : Build.accessible? value.ty = some pointee) :
      (S.types v).bank = .int ∧ (S.types v).pointee? = some pointee := by
    have is_pointee := (Option.filter_eq_some_iff.mp legal).1
    rw [(old found).1]
    exact ⟨Ty.bank_of_isPointer (Ty.isPointer_of_pointee? is_pointee), is_pointee⟩
  cases admits with
  | @binary op lhs rhs left right ty reads reads' legal swap swapped =>
    have banks : (S.types lhs).bank = (S.types rhs).bank := by
      rw [(old reads.1).1, (old reads'.1).1]
      exact BinaryOp.bank_of_result legal
    refine ⟨?_, (new rfl).2, nofun⟩
    cases swap with
    | false => exact banks
    | true => exact banks.symm
  | @update op target rhs previous right named ty reads reads' is_named mutable legal =>
    refine ⟨?_, ?_, fun _ => rfl⟩
    · rw [(old reads.1).1, (old reads'.1).1]
      exact BinaryOp.bank_of_result legal
    · rw [(old reads.1).2]
      cases kind : previous.kind <;> simp_all [named?, Value.constant?]
  | compare reads reads' legal =>
    show _ = _
    rw [(old reads.1).1, (old reads'.1).1]
    exact Ty.bank_of_comparable legal
  | @unary op operand value ty reads legal =>
    obtain ⟨is_type, varies⟩ := new rfl
    refine ⟨varies, ?_, ?_⟩
    · rintro rfl
      rw [(old reads.1).1]
      simp only [UnaryOp.result] at legal
      split at legal
      · next integer => exact Ty.bank_of_isInteger (by simp_all)
      · cases legal
    · rintro rfl single
      simp only [UnaryOp.result] at legal
      split at legal
      · cases legal
        rwa [is_type, ofTemporary, Ty.isSingle_unqualified, ← (old reads.1).1] at single
      · cases legal
  | convert reads legal => exact (new rfl).2
  | @assign target v previous value named found reads is_named mutable legal =>
    show Ty.Suits _ _
    rw [(old found).1, (old reads.1).1]
    exact Ty.suits_of_assignable legal
  | @call function callee args is_callee passes makes value =>
    obtain ⟨callee', known', face⟩ := known is_callee
    have is_signature := signature_of_face face
    have called : (Callee.direct function).signature? m.types m.functions
        = some callee.signature := by
      rw [← is_signature]
      exact congrArg (Option.map Declaration.signature) known'
    exact ⟨callee.signature, types ▸ called, sites called, passed passes, returned rfl⟩
  | @callIndirect pointer target sig args reads is_function passes makes value =>
    have called : (Callee.indirect pointer).signature? m.types m.functions = some sig := by
      rw [Callee.signature?, ← types, (old reads.1).1]
      exact is_function
    exact ⟨sig, types ▸ called, sites called, passed passes, returned rfl⟩
  | addressOf found legal => trivial
  | dereference reads legal => exact ⟨(addresses reads.1 legal).1, (new rfl).2⟩
  | @store pointer v target value pointee reads reads' legal mutable fits =>
    obtain ⟨int, is_pointee⟩ := addresses reads.1 legal
    refine ⟨int, fun {other} is_other => ?_⟩
    obtain rfl := Option.mem_unique is_pointee is_other
    rw [(old reads'.1).1]
    exact Ty.suits_of_assignable fits
  | member reads legal =>
    show Ty.bank _ = _
    rw [(old reads.1).1]
    exact Ty.bank_of_isPointer legal
  | @functionAddress function callee is_callee internal =>
    obtain ⟨callee', known', face⟩ := known is_callee
    intro other known''
    obtain rfl := Option.mem_unique known' known''
    exact (isExternal_of_face face).trans internal
  | label unplaced => trivial
  | jump target => exact goes rfl
  | branch reads legal =>
    refine ⟨?_, goes rfl⟩
    rw [(old reads.1).1]
    rw [Bool.or_eq_true] at legal
    exact legal.elim Ty.bank_of_isInteger Ty.bank_of_isPointer
  | ret reads legal =>
    rw [same] at legal
    refine ⟨?_, fun is_pointer => ?_⟩
    · rw [(old reads.1).1]
      exact Ty.suits_of_assignable legal
    · rw [types]
      exact Ty.bank_of_isPointer (pointer is_pointer)
  | leave legal =>
    rw [same] at legal
    exact Ty.not_isSingle_of_isVoid legal
  | comment text => trivial

end Module

def Declaration.labels (decl : Declaration) : List LabelId :=
  decl.start :: Operation.labels decl.operations ++ [decl.epilogue]

/-- How the code of a function ends before it returns. -/
abbrev Declaration.departure (decl : Declaration) (frame : FrameId) : List Instr :=
  [.label decl.epilogue, .stackAdjust (.leave frame)]

namespace Module
variable {other : Declaration}

def Codes (m : Module) (decl : Declaration) : Prop := decl ∈ m.functions ∧ decl.isExternal = false

def labels (m : Module) : List LabelId :=
  (m.functions.toList.filter fun decl => !decl.isExternal).flatMap Declaration.labels

theorem mem_labels : label ∈ m.labels ↔ ∃ decl, m.Codes decl ∧ label ∈ decl.labels := by
  simp [labels, Codes, and_assoc]

section
variable (unique : m.labels.Nodup)
include unique

theorem nodup_of_codes (codes : m.Codes decl) : decl.labels.Nodup := by
  refine (nodup_flatMap.mp unique).1 decl ?_
  simpa [Codes] using codes

theorem eq_of_mem_labels (codes : m.Codes decl) (codes' : m.Codes other)
    (member : label ∈ decl.labels) (member' : label ∈ other.labels) : decl = other := by
  by_contra different
  have apart := (nodup_flatMap.mp unique).2
  have symmetric : Std.Symm (Function.onFun List.Disjoint Declaration.labels) :=
    ⟨fun _ _ disjoint => disjoint.symm⟩
  refine apart.forall ?_ ?_ different member member'
  · simpa [Codes] using codes
  · simpa [Codes] using codes'

end

/-- How singles are followed through the code of the module. -/
structure Tracing (m : Module) where
  /-- Precision is followed at all. -/
  precise : Prop
  /-- The patterns that are numbers of single precision. -/
  single : Word → Prop
  /-- The signatures with which the instruction of that number may call. -/
  site : Nat → Signature → Prop
  widths : ∀ {v}, precise → (m.types v).isFloat = true → (m.types v).size = 4 ∨ (m.types v).size = 8
  rounded : ∀ {v bits}, precise → m.constant? v = some bits →
    (m.types v).isSingle = true → single bits
  unique : precise → m.labels.Nodup
  sites : ∀ {decl later item rest c c' sig index}, m.Reaches decl later (item :: rest) c →
    Runs (lowerItem m.functions decl item rest.isEmpty) c () c' →
    item.operation.CallsWith m.types m.functions sig →
    c.code.size ≤ index → index < c'.code.size → site index sig

namespace Tracing
variable (t : m.Tracing)

/-- Start labels promise the arguments, and the label of an epilogue the result. -/
def flow : Flow where
  precise := t.precise
  single := t.single
  since := 0
  base _ := False
  arrives label r := t.precise ∧ ∃ decl, m.Codes decl
    ∧ (label = decl.start ∧ decl.signature.Carries r ∨ label = decl.epilogue
      ∧ decl.signature.Yields r)
  returns label r := ∃ decl, m.Codes decl ∧ label = decl.start ∧ decl.signature.Yields r
  site := t.site
  host decl := decl ∈ m.functions

def scope (decl : Declaration) : Scope where
  toFlow := t.flow
  types := m.types
  constants := m.constant?
  targets label := label = decl.epilogue ∨ label ∈ Operation.labels decl.operations
  starts label := ∃ callee, m.Codes callee ∧ label = callee.start
  widths := t.widths
  rounded := t.rounded

variable {t}

section
variable (codes : m.Codes decl)
include codes

theorem promised_of_arrives {label : LabelId} (listed : label ∈ decl.labels)
    (arrives : t.flow.arrives label r) : t.precise ∧ (label = decl.start ∧ decl.signature.Carries r
      ∨ label = decl.epilogue ∧ decl.signature.Yields r) := by
  obtain ⟨precise, other, codes', promise⟩ := arrives
  have listed' : label ∈ other.labels := by
    obtain ⟨rfl, _⟩ | ⟨rfl, _⟩ := promise <;> simp [Declaration.labels]
  obtain rfl := eq_of_mem_labels (t.unique precise) codes codes' listed listed'
  exact ⟨precise, promise⟩

theorem start_ne_epilogue (precise : t.precise) : decl.start ≠ decl.epilogue := by
  intro same
  have distinct := nodup_of_codes (t.unique precise) codes
  simp [Declaration.labels, same] at distinct

theorem carries_of_arrives (arrives : t.flow.arrives decl.start r) :
    t.precise ∧ decl.signature.Carries r := by
  obtain ⟨precise, ⟨_, carries⟩ | ⟨same, _⟩⟩ := promised_of_arrives codes List.mem_cons_self arrives
  · exact ⟨precise, carries⟩
  · exact (start_ne_epilogue codes precise same).elim

theorem yields_of_arrives (arrives : t.flow.arrives decl.epilogue r) :
    t.precise ∧ decl.signature.Yields r := by
  obtain ⟨precise, ⟨same, _⟩ | ⟨_, yields⟩⟩ :=
    promised_of_arrives codes (by simp [Declaration.labels]) arrives
  · exact (start_ne_epilogue codes precise same.symm).elim
  · exact ⟨precise, yields⟩

theorem not_arrives_of_placed (placed : label ∈ Operation.labels decl.operations) (r : Register) :
    ¬t.flow.arrives label r := by
  rintro ⟨precise, other, codes', promise⟩
  have unique := t.unique precise
  have listed : label ∈ decl.labels := by simp [Declaration.labels, placed]
  have listed' : label ∈ other.labels := by
    obtain ⟨rfl, _⟩ | ⟨rfl, _⟩ := promise <;> simp [Declaration.labels]
  obtain rfl := eq_of_mem_labels unique codes codes' listed listed'
  have distinct := nodup_of_codes unique codes
  obtain ⟨rfl, _⟩ | ⟨rfl, _⟩ := promise
  · simp [Declaration.labels, placed] at distinct
  · rw [Declaration.labels, nodup_append] at distinct
    exact distinct.2.2 _ (mem_cons_of_mem _ placed) _ mem_cons_self rfl

theorem links (c : Context) (site : Signature → Prop) :
    ((t.scope decl).starting c site).Links m.functions decl where
  start member internal := ⟨_, ⟨member, internal⟩, rfl⟩
  carries member internal arrives := carries_of_arrives ⟨member, internal⟩ arrives
  yields member internal yields := ⟨_, ⟨member, internal⟩, rfl, yields⟩
  host member := member
  epilogue := .inl rfl
  ends arrives := yields_of_arrives codes arrives

end

theorem legal (vetted : m.Vetted) (codes : m.Codes decl)
    (member : operation ∈ decl.operations) (c : Context) :
    operation.Legal ((t.scope decl).starting c fun s => operation.CallsWith m.types m.functions s)
      m.functions decl := by
  obtain ⟨i, known⟩ := mem_iff_getElem?.mp codes.1
  have completes := vetted.bodies (f := ⟨i⟩) known
  refine (completes.vets operation member).legal rfl rfl (fun {label} goes => ?_)
    (fun calls _ => calls) fun {v} is_pointer => ?_
  · have placed := completes.reached operation member goes
    exact ⟨.inr placed, not_arrives_of_placed codes placed⟩
  · obtain ⟨value, found, is_type, _⟩ :=
      vetted.formals (f := ⟨i⟩) known (Declaration.mem_formals_of_returnPointer is_pointer)
    simp [types, found, is_type, Ty.isPointer]

end Tracing

end Module

def Declaration.endsOpen (decl : Declaration) : Bool := !endsWithReturn (decl.body.getD [])

def StackAmount.frame? : StackAmount → Option FrameId
  | .enter frame => some frame
  | .leave frame => some frame
  | .statics => none

/-- How an instruction of a function stands after the code before it. A label stands at the very
beginning, where what it promises is known, or at the end of a body that control may come to. -/
def Instr.Stands (S : Scope) (c : Context) (before : List Instr) : Instr → Prop
  | .label id => before = [] ∨ (∀ r, S.arrives id r → S.knows before.reverse r)
      ∨ ∃ decl, S.host decl ∧ decl.isExternal = false ∧ id = decl.epilogue ∧ decl.endsOpen = true
  | .stackAdjust amount => ∀ frame, amount.frame? = some frame → frame.index < c.frames.sizes.size
  | i => i.Fine S c ∧ i.Sound S.toFlow before

def Scope.Lays (S : Scope) (c : Context) : (before : List Instr) → List Instr → Prop
  | _, [] => True
  | before, i :: rest => i.Stands S c before ∧ S.Lays c (before ++ [i]) rest

section
variable {first second : List Instr}

theorem Instr.Stands.of_fine (fine : i.Fine S c) (sound : i.Sound S.toFlow before) :
    i.Stands S c before := by
  cases i with
  | label id => exact fine.elim
  | stackAdjust amount => exact fine.elim
  | _ => exact ⟨fine, sound⟩

theorem Instr.Stands.mono (stands : i.Stands S c before) (leads : Leads c c') :
    i.Stands S c' before := by
  cases i with
  | label id => exact stands
  | stackAdjust amount =>
    intro frame is_frame
    rw [leads.frames]
    exact stands frame is_frame
  | _ => exact ⟨Instr.Fine.mono stands.1 leads, stands.2⟩

namespace Scope.Lays

theorem mono (lays : S.Lays c before first) (leads : Leads c c') : S.Lays c' before first := by
  induction first generalizing before with
  | nil => trivial
  | cons i rest ih => exact ⟨lays.1.mono leads, ih lays.2⟩

theorem append (lays : S.Lays c before first) (lays' : S.Lays c (before ++ first) second) :
    S.Lays c before (first ++ second) := by
  induction first generalizing before with
  | nil => simpa using lays'
  | cons i rest ih => exact ⟨lays.1, ih lays.2 (by simpa using lays')⟩

theorem of_split (lays : S.Lays c before (first ++ i :: second)) :
    i.Stands S c (before ++ first) := by
  induction first generalizing before with
  | nil => simpa using lays.1
  | cons j rest ih => simpa using ih lays.2

theorem outside (lays : S.Lays c before first) (currentFrame : Option FrameId)
    (statistics : Statistics) : S.Lays { c with currentFrame, statistics } before first := by
  induction first generalizing before with
  | nil => trivial
  | cons i rest ih =>
    refine ⟨?_, ih lays.2⟩
    cases i <;> exact lays.1

theorem of_clean (clean : S.Clean c before first) : S.Lays c before first := by
  induction first generalizing before with
  | nil => trivial
  | cons i rest ih => exact ⟨.of_fine clean.1 clean.2.1, ih clean.2.2⟩

end Scope.Lays

theorem Scope.Clean.unlabelled (clean : S.Clean c before first) :
    first.filterMap Instr.label? = [] := by
  induction first generalizing before with
  | nil => rfl
  | cons i rest ih =>
    rw [filterMap_cons, ih clean.2.2]
    cases i with
    | label id => exact clean.1.elim
    | _ => rfl

end

/-- From the one context to the other, code was laid out that places the labels. -/
structure Laid (S : Scope) (labels : List LabelId) (c c' : Context) : Prop where
  leads : Leads c c'
  code : ∃ added, c'.code.toList = c.code.toList ++ added ∧ S.Lays c' c.code.toList added
    ∧ added.filterMap Instr.label? = labels
  sorted : c'.Sorted S none

section
variable {c1 : Context} {first second : List LabelId} {x : Gen α}

theorem Laid.trans (laid : Laid S first c c1) (laid' : Laid S second c1 c') :
    Laid S (first ++ second) c c' where
  leads := laid.leads.trans laid'.leads
  code := by
    obtain ⟨added, same, lays, places⟩ := laid.code
    obtain ⟨more, same', lays', places'⟩ := laid'.code
    refine ⟨added ++ more, by rw [same', same, List.append_assoc], ?_, ?_⟩
    · exact (lays.mono laid'.leads).append (same ▸ lays')
    · rw [List.filterMap_append, places, places']
  sorted := laid'.sorted

section
variable (sorted : c.Sorted S none)
include sorted

theorem Laid.refl : Laid S [] c c := ⟨.refl c, ⟨[], by simp, trivial, rfl⟩, sorted⟩

theorem Context.Sorted.pushed (code : i.isRemark = false)
    (kept : ∀ {r v}, c.registers.occupant? r = some v → c.Knows S.toFlow r →
      c.Gains S i r) : (c.pushed i).Sorted S none := by
  refine sorted.after (.pushed _ _)
    (S.discipline.emit sorted.held code fun _ _ => ⟨trivial, trivial, trivial⟩) id ?_
  rintro r _ _ ⟨v, occupied⟩ known
  exact (knows_pushed sorted.begun i r).mpr (kept occupied known)

theorem Context.Sorted.pushed_of_vacant (code : i.isRemark = false)
    (vacant : c.Vacant) : (c.pushed i).Sorted S none :=
  sorted.pushed code fun occupied => by cases (vacant _).symm.trans occupied

theorem laid_emit (code : i.isRemark = false) (stands : i.Stands S c c.code.toList)
    (kept : ∀ {r v}, c.registers.occupant? r = some v → c.Knows S.toFlow r →
      c.Gains S i r) : Laid S i.label?.toList c (c.pushed i) where
  leads := .pushed _ _
  code := by
    refine ⟨[i], by simp [Context.pushed], ⟨stands.mono (.pushed _ _), trivial⟩, ?_⟩
    cases places : i.label? <;> simp [places]
  sorted := sorted.pushed code kept

end

theorem Gives.laid {a : α} {Q : α → Context → Prop}
    (gives : Gives (S.starting c site) .working c x Q) (sorted : c.Sorted S none)
    (run : Runs x c a c') (sites : ∀ {index sig}, c.code.size ≤ index → index < c'.code.size →
      site sig → S.site index sig) :
    Laid S [] c c' ∧ Q a c' ∧ ∀ {r}, c'.Knows (S.starting c site).toFlow r →
    c'.Knows S.toFlow r := by
  obtain ⟨leads, sorted', q, ⟨added, same, clean⟩, known⟩ := gives.started sorted run sites
  exact ⟨⟨leads, ⟨added, same, .of_clean clean, clean.unlabelled⟩, sorted'⟩, q, known⟩

theorem Writes.laid {a : α} (writes : Writes (S.starting c fun _ => False) .working c x)
    (sorted : c.Sorted S none) (run : Runs x c a c') : Laid S [] c c' :=
  (Gives.laid writes sorted run fun _ _ absurd => absurd.elim).1

end

theorem writes_bindParameters {params : List (ValueId × ArgumentPlace)}
    (ready : ∀ {v r}, (v, .register r) ∈ params → r.bank = .float → S.Tracks v →
      c.Knows S.toFlow r) :
    Writes S .working c (bindParameters params) := by
  induction params generalizing c with
  | nil => exact gives_pure _ trivial
  | cons param rest ih =>
    obtain ⟨v, place⟩ := param
    cases place with
    | stack offset => exact ih fun member => ready (mem_cons_of_mem _ member)
    | register r =>
      refine gives_bind (gives_bindRegister (ready mem_cons_self)) fun _ bound => ?_
      refine gives_quietly (writes_markDirty v) fun marked _ => ih fun member float tracks => ?_
      exact marked.spares float trivial (bound.2.2 (ready (mem_cons_of_mem _ member) float tracks))

namespace Module.Tracing
variable {t : m.Tracing} (vetted : m.Vetted) (codes : m.Codes decl)

section
include vetted codes

theorem laid_lowerItem {item : BodyItem} {rest : List BodyItem}
    (reaches : m.Reaches decl later (item :: rest) c)
    (member : item.operation ∈ decl.operations) (sorted : c.Sorted (t.scope decl) none)
    (run : Runs (lowerItem m.functions decl item rest.isEmpty) c () c') :
    Laid (t.scope decl) item.operation.places?.toList c c' ∧ (item.operation.isReturn = true →
      ∀ {r}, t.precise → decl.signature.Yields r → c'.Knows t.flow r) := by
  have lowered := runs_lowerUnchecked run
  cases places : item.operation.places? with
  | none =>
    obtain ⟨laid, returned, known⟩ := (gives_lowerUnchecked (links codes c _)
      (legal vetted codes member c) places).laid sorted lowered
        fun low high calls => t.sites reaches run calls low high
    exact ⟨laid, fun returns r precise yields => known (returned returns precise yields)⟩
  | some label =>
    have is_label : item.operation = .label label := by
      cases is_operation : item.operation <;> simp_all [Operation.places?]
    have placed : label ∈ Operation.labels decl.operations := mem_filterMap.mpr ⟨_, member, places⟩
    refine ⟨?_, by simp [is_label, Operation.isReturn]⟩
    simp only [lowerUnchecked, is_label, Operation.isComment, lowerOperation,
      lowerLabel, Bool.not_false, ↓reduceIte, bind_assoc, runs_bind] at lowered
    obtain ⟨_, c1, commented, _, c2, located, _, c3, settled, _, c4, emitted, _, c5, recorded,
      released⟩ := lowered
    obtain rfl := runs_emit.mp emitted
    have laid1 := Writes.laid (of_quiet (writes_comment _)) sorted commented
    have laid2 := Writes.laid (of_quiet (writes_setLocation _)) laid1.sorted located
    have laid3 := Writes.laid (of_quiet writes_settleAtJoin) laid2.sorted settled
    have vacant : c3.Vacant :=
      (empties_bind fun _ => empties_dropAll true : Empties settleAtJoin) settled
    have laid4 : Laid (t.scope decl) [label] c3 (c3.pushed (.label label)) := by
      refine laid_emit (i := .label label) laid3.sorted rfl ?_ fun occupied => ?_
      · exact .inr (.inl fun r arrives => (not_arrives_of_placed codes placed r arrives).elim)
      · cases (vacant _).symm.trans occupied
    have laid5 := Writes.laid (of_quiet (writes_record _)) laid4.sorted recorded
    have laid6 := Writes.laid (of_quiet writes_releaseEscaped) laid5.sorted released
    exact laid1.trans (laid2.trans (laid3.trans (laid4.trans (laid5.trans laid6))))

theorem laid_lowerBody {items : List BodyItem} (reaches : m.Reaches decl later items c)
    (members : ∀ item ∈ items, item.operation ∈ decl.operations)
    (sorted : c.Sorted (t.scope decl) none) (run : Runs (lowerBody m.functions decl items) c u c') :
    Laid (t.scope decl) (Operation.labels (items.map BodyItem.operation)) c c'
    ∧ (endsWithReturn items = true →
      ∀ {r}, t.precise → decl.signature.Yields r → c'.Knows t.flow r) := by
  induction items generalizing c with
  | nil =>
    obtain ⟨_, rfl⟩ := runs_pure.mp run
    exact ⟨.refl sorted, nofun⟩
  | cons item rest ih =>
    rw [forall_mem_cons] at members
    simp only [lowerBody, runs_bind] at run
    obtain ⟨_, c1, lowered, run⟩ := run
    obtain ⟨laid, returned⟩ := laid_lowerItem vetted codes reaches members.1 sorted lowered
    obtain ⟨laid', returned'⟩ := ih (.item reaches lowered) members.2 laid.sorted run
    have labels : Operation.labels ((item :: rest).map BodyItem.operation)
        = item.operation.places?.toList ++ Operation.labels (rest.map BodyItem.operation) := by
      cases places : item.operation.places? <;> simp [Operation.labels, places]
    refine ⟨labels ▸ laid.trans laid', fun ends => ?_⟩
    cases rest with
    | nil =>
      obtain ⟨_, rfl⟩ := runs_pure.mp run
      exact returned (by simpa [endsWithReturn] using ends)
    | cons next more => exact returned' (by simpa [endsWithReturn] using ends)

theorem laid_lowerPrologue (known_frame : frame.index < c.frames.sizes.size) (vacant : c.Vacant)
    (apart : c.code.toList = [] ∨ ∀ r, c.Knows t.flow r) (sorted : c.Sorted (t.scope decl) none)
    (run : Runs (lowerPrologue decl frame) c u c') : Laid (t.scope decl) [decl.start] c c' := by
  simp only [lowerPrologue, runs_bind] at run
  obtain ⟨_, c1, emitted, _, c2, commented, _, c3, emitted', bound⟩ := run
  obtain rfl := runs_emit.mp emitted
  obtain rfl := runs_emit.mp emitted'
  have laid1 : Laid (t.scope decl) [decl.start] c (c.pushed (.label decl.start)) := by
    refine laid_emit (i := .label decl.start) sorted rfl ?_ fun occupied => ?_
    · exact apart.imp id fun known => .inl fun r _ => known r
    · cases (vacant _).symm.trans occupied
  have laid2 := Writes.laid (of_quiet (writes_comment _)) laid1.sorted commented
  have laid3 : Laid (t.scope decl) [] c2 (c2.pushed (.stackAdjust (.enter frame))) := by
    refine laid_emit (i := .stackAdjust (.enter frame)) laid2.sorted rfl ?_ fun _ => id
    rintro _ ⟨⟩
    rw [laid2.leads.frames]
    exact known_frame
  obtain ⟨remarks, only, rfl⟩ := runs_comment commented
  refine laid1.trans
    (laid2.trans (laid3.trans (Writes.laid (writes_bindParameters ?_) laid3.sorted bound)))
  intro v r passed float tracks
  obtain ⟨i, known⟩ := mem_iff_getElem?.mp codes.1
  obtain ⟨ty, typed⟩ := CallLayout.typed_place passed
  obtain ⟨value, found, rfl, named, _⟩ :=
    vetted.formals (f := ⟨i⟩) known (List.mem_append_left _ typed)
  have varies : value.constant? = none := by
    cases kind : value.kind <;> simp_all [Value.constant?, Value.isNamed, Value.named?]
  obtain ⟨is_type, is_constant⟩ := types_of_core ⟨value, found, rfl⟩
  obtain ⟨precise, single⟩ := tracks.isSingle (is_constant.trans varies)
  refine (Flow.knows_starting _).mpr ?_
  refine (Context.knows_pushed (Nat.zero_le _) _ _).mpr ?_
  refine (Context.knows_appended (Nat.zero_le _) (fun i member => (only i member).remark) _).mpr ?_
  refine (Context.knows_pushed (Nat.zero_le _) _ _).mpr ?_
  refine ⟨precise, decl, codes, .inl ⟨rfl, value.ty, (of_mem_zip typed).2, ?_⟩⟩
  rw [← is_type]
  exact single

end

include codes in
theorem laid_epilogue (known_frame : frame.index < c.frames.sizes.size) (vacant : c.Vacant)
    (returned : decl.endsOpen = false → ∀ {r}, t.precise →
      decl.signature.Yields r → c.Knows t.flow r)
    (sorted : c.Sorted (t.scope decl) none) : Laid (t.scope decl) [decl.epilogue] c
      ((c.pushed (.label decl.epilogue)).pushed (.stackAdjust (.leave frame))) := by
  have laid1 : Laid (t.scope decl) [decl.epilogue] c (c.pushed (.label decl.epilogue)) := by
    refine laid_emit (i := .label decl.epilogue) sorted rfl ?_ fun occupied => ?_
    · cases is_open : decl.endsOpen with
      | true => exact .inr (.inr ⟨decl, codes.1, codes.2, rfl, is_open⟩)
      | false =>
        refine .inr (.inl fun r arrives => ?_)
        obtain ⟨precise, yields⟩ := yields_of_arrives codes arrives
        exact returned is_open precise yields
    · cases (vacant _).symm.trans occupied
  refine laid1.trans (laid_emit (i := .stackAdjust (.leave frame)) laid1.sorted rfl ?_ fun _ => id)
  rintro _ ⟨⟩
  exact known_frame

end Module.Tracing

structure Piece (S : Scope) (decl : Declaration) (c c' : Context) : Prop where
  leads : Leads c c'
  code : ∃ first frame,
    c'.code.toList = c.code.toList ++ (first ++ decl.departure frame) ++ [.ret]
    ∧ S.Lays c' c.code.toList (first ++ decl.departure frame)
    ∧ (first ++ decl.departure frame).filterMap Instr.label? = decl.labels

structure Module.Tracing.Pauses {m : Module} (t : m.Tracing) (c : Context) : Prop where
  sorted : ∀ decl, c.Sorted (t.scope decl) none
  vacant : c.Vacant
  apart : c.code.toList = [] ∨ ∀ r, c.Knows t.flow r
  outside : c.currentFrame = none
  frames : c.frames.sizes.size = m.frames.sizes.size

theorem Leads.enclosed (statistics : Statistics)
    (leads : Leads { c with currentFrame := some frame } c') (outside : c.currentFrame = none) :
    Leads c { c' with currentFrame := none, statistics } where
  options := leads.options
  currentFrame := outside.symm
  code := leads.code
  extent := leads.extent
  frames := leads.frames
  bounded := leads.bounded
  areas := leads.areas
  values := leads.values
  unknown := leads.unknown

namespace Module.Tracing
variable {t : m.Tracing}

theorem sorted_scope (sorted : c.Sorted (t.scope decl) none) (other : Declaration) :
    c.Sorted (t.scope other) none := ⟨sorted.held, sorted.begun, sorted.singles⟩

theorem Pauses.laid_lowerPrologue (pauses : t.Pauses c) (vetted : m.Vetted) (codes : m.Codes decl)
    (is_frame : decl.frame = some frame)
    (entered : Runs (lowerPrologue decl frame) { c with currentFrame := some frame } u c') :
    frame.index < c.frames.sizes.size
      ∧ Laid (t.scope decl) [decl.start] { c with currentFrame := some frame } c' := by
  have sorted0 : ({ c with currentFrame := some frame } : Context).Sorted (t.scope decl) none :=
    (pauses.sorted decl).aside ⟨rfl, fun _ => rfl, fun _ => rfl, fun _ => le_rfl, rfl⟩
  have known_frame : frame.index < c.frames.sizes.size := by
    obtain ⟨i, known⟩ := mem_iff_getElem?.mp codes.1
    rw [pauses.frames]
    exact vetted.framed (f := ⟨i⟩) known is_frame
  exact ⟨known_frame, Tracing.laid_lowerPrologue vetted codes
    (c := { c with currentFrame := some frame }) known_frame
    pauses.vacant pauses.apart sorted0 entered⟩

theorem piece_lowerFunction (vetted : m.Vetted) (visits : m.Visits (decl :: rest) c)
    (internal : decl.isExternal = false) (pauses : t.Pauses c)
    (run : Runs (lowerFunction m.functions decl) c range c') :
    Piece (t.scope decl) decl c c' ∧ t.Pauses c' := by
  have codes : m.Codes decl := ⟨by simpa using visits.suffix.subset List.mem_cons_self, internal⟩
  obtain ⟨frame, body, c1, c2, c3, c4, is_frame, is_body, entered, lowered, retired, left, rfl⟩ :=
    runs_lowerFunction_steps run
  have operations := operations_of_body is_body
  obtain ⟨known_frame, laid1⟩ := pauses.laid_lowerPrologue vetted codes is_frame entered
  obtain ⟨laid2, returned⟩ :=
    laid_lowerBody vetted codes (.body visits internal is_frame is_body entered)
    (fun item member => operations ▸ List.mem_map_of_mem member) laid1.sorted lowered
  obtain ⟨laid3, vacant, returned'⟩ : Laid (t.scope decl) [] c2 c3 ∧ c3.Vacant
      ∧ (decl.endsOpen = false → ∀ {r}, t.precise → decl.signature.Yields r →
        c3.Knows t.flow r) := by
    obtain ⟨falls, retired⟩ | ⟨returns, kept⟩ := runs_ite.mp retired
    · refine ⟨Writes.laid (Gives.of_quiet writes_retireRegisters) laid2.sorted retired,
        empties_retireRegisters retired, fun closed => ?_⟩
      simp [Declaration.endsOpen, is_body, falls] at closed
    · have ends : endsWithReturn body = true := by simpa using returns
      obtain ⟨_, rfl⟩ := runs_pure.mp kept
      exact ⟨.refl laid2.sorted, empties_lowerBody ends lowered, fun _ => returned ends⟩
  have upper := laid1.trans (laid2.trans laid3)
  have known3 : frame.index < c3.frames.sizes.size := by
    rw [upper.leads.frames]
    exact known_frame
  have laid := upper.trans (laid_epilogue codes known3 vacant returned' laid3.sorted)
  simp only [lowerEpilogue, runs_bind, runs_emit] at left
  obtain ⟨_, _, rfl, _, _, rfl, rfl⟩ := left
  set c4 := (c3.pushed (.label decl.epilogue)).pushed (.stackAdjust (.leave frame))
  have sorted (other : Declaration) (statistics : Statistics) :
      ({ c4.pushed .ret with currentFrame := none, statistics } : Context).Sorted
        (t.scope other) none :=
    (sorted_scope (laid.sorted.pushed_of_vacant rfl vacant) other).aside
      ⟨rfl, fun _ => rfl, fun _ => rfl, fun _ => le_rfl, rfl⟩
  refine ⟨⟨(laid.leads.trans (.pushed c4 .ret)).enclosed _ pauses.outside, ?_⟩, ?_⟩
  · obtain ⟨first, same, _, _⟩ := upper.code
    obtain ⟨added, same', lays, labels⟩ := laid.code
    obtain rfl : added = first ++ decl.departure frame := by
      have both : c.code.toList ++ added
          = c.code.toList ++ (first ++ decl.departure frame) := by
        rw [← same', ← List.append_assoc, ← same]
        simp [c4, Context.pushed]
      exact List.append_cancel_left both
    refine ⟨first, frame, by simp [Context.pushed, same'], ?_, ?_⟩
    · exact (lays.mono (.pushed c4 .ret)).outside none _
    · rw [labels, Declaration.labels, operations]
      simp
  · refine ⟨fun other => sorted other _, vacant, .inr fun r => ?_, rfl, ?_⟩
    · exact (Context.knows_pushed (Nat.zero_le _) _ _).mpr trivial
    · exact laid.leads.frames.trans pauses.frames

end Module.Tracing

theorem code_of_lowerEntry {functions : Array Declaration} {entry : Option FunctionId}
    (run : Runs (lowerEntry functions entry) c u c') :
    (entry = none ∧ c' = c) ∨ ∃ f decl, entry = some f ∧ functions[f.index]? = some decl
      ∧ c' = ((c.pushed (.stackAdjust .statics)).pushed (.call decl.start)).pushed .halt := by
  unfold lowerEntry at run
  split at run
  · exact .inl ⟨rfl, (runs_pure.mp run).2⟩
  · next f =>
    split at run
    · exact (runs_inconsistent.mp run).elim
    · next decl known =>
      simp only [runs_bind, runs_emit] at run
      obtain ⟨_, _, rfl, _, _, rfl, rfl⟩ := run
      exact .inr ⟨f, decl, rfl, known, rfl⟩

namespace Module.Tracing
variable {t : m.Tracing} (vetted : m.Vetted)

section
include vetted

theorem pauses_context : t.Pauses m.context where
  sorted decl := by
    have vacant := m.occupant?_context
    refine ⟨⟨vetted.owned, ⟨?_, ?_⟩, trivial, ?_⟩, Nat.zero_le _, fun _ _ occupied => ?_⟩
    · intro v value found
      obtain ⟨is_type, is_constant⟩ := types_of_core ⟨value, found, rfl⟩
      exact ⟨is_type.symm, is_constant.symm⟩
    · intro r v occupied
      cases (vacant r).symm.trans occupied
    · intro v value place found here
      have housed :=
        (vetted.values found).housed (by simpa [(vetted.values found).position] using here)
      cases place with
      | register r => exact housed.elim
      | stack slot => exact housed
      | constant id =>
        obtain ⟨blob, known, filled⟩ := housed
        simpa [Zoning.known, Context.extent, Module.context, known] using
          length_pos_of_ne_nil filled
      | _ => trivial
    · cases (vacant _).symm.trans occupied
  vacant := m.occupant?_context
  apart := .inl rfl
  outside := rfl
  frames := rfl

theorem pauses_lowerEntry (run : Runs (lowerEntry m.functions m.entry) m.context () c) :
    t.Pauses c := by
  have pauses := pauses_context (t := t) vetted
  obtain ⟨_, rfl⟩ | ⟨f, decl, _, _, rfl⟩ := code_of_lowerEntry run
  · exact pauses
  · refine ⟨fun other => ?_, pauses.vacant, .inr fun r => ?_, rfl, rfl⟩
    · have sorted1 :=
        (pauses.sorted other).pushed_of_vacant (i := .stackAdjust .statics) rfl pauses.vacant
      have sorted2 := sorted1.pushed_of_vacant (i := .call decl.start) rfl pauses.vacant
      exact sorted2.pushed_of_vacant rfl pauses.vacant
    · exact (Context.knows_pushed (Nat.zero_le _) _ _).mpr trivial

theorem pauses_of_visits (visits : m.Visits decls c) : t.Pauses c := by
  induction visits with
  | entry run => exact pauses_lowerEntry vetted run
  | external _ _ ih => exact ih
  | function visits internal run ih =>
    exact (piece_lowerFunction vetted visits internal ih run).2

theorem piece_of_visits (visits : m.Visits (decl :: rest) c) (internal : decl.isExternal = false)
    (run : Runs (lowerFunction m.functions decl) c range c') : Piece (t.scope decl) decl c c' :=
  (piece_lowerFunction vetted visits internal (pauses_of_visits vetted visits) run).1

end

/-- An instruction of a module and the code before it. -/
inductive Standing (t : m.Tracing) (c : Context) : List Instr → Instr → Prop
  | statics : t.Standing c [] (.stackAdjust .statics)
  | entry {decl : Declaration} : m.Codes decl → decl.signature.params = [] →
      t.Standing c [.stackAdjust .statics] (.call decl.start)
  | halt {before : List Instr} : t.Standing c before .halt
  | inner {decl : Declaration} {before : List Instr} {i : Instr} : m.Codes decl →
      i.Stands (t.scope decl) c before → t.Standing c before i
  | ret {decl : Declaration} {earlier : List Instr} {frame : FrameId} : m.Codes decl →
      t.Standing c (earlier ++ decl.departure frame) .ret

theorem Standing.mono (standing : t.Standing c before i) (leads : Leads c c') :
    t.Standing c' before i := by
  cases standing with
  | statics => exact .statics
  | entry codes bare => exact .entry codes bare
  | halt => exact .halt
  | inner codes stands => exact .inner codes (stands.mono leads)
  | ret codes => exact .ret codes

end Module.Tracing

theorem split_append {first second before after : List α} {a : α}
    (split : first ++ second = before ++ a :: after) :
    (∃ later, first = before ++ a :: later) ∨ ∃ earlier, before = first ++ earlier
    ∧ second = earlier ++ a :: after := by
  obtain ⟨earlier, same, rest⟩ | ⟨later, same, rest⟩ := append_eq_append_iff.mp split
  · exact .inr ⟨earlier, same, rest⟩
  · cases later with
    | nil => exact .inr ⟨[], by simpa using same.symm, by simpa using rest.symm⟩
    | cons b later =>
      obtain ⟨rfl, rfl⟩ := List.cons.inj rest
      exact .inl ⟨later, same⟩

namespace Module.Tracing
variable {t : m.Tracing} (vetted : m.Vetted)
include vetted

theorem standing_of_visits (visits : m.Visits decls c) {after : List Instr}
    (split : c.code.toList = before ++ i :: after) : t.Standing c before i := by
  induction visits generalizing before after with
  | entry run =>
    obtain ⟨_, rfl⟩ | ⟨f, decl, is_entry, known, rfl⟩ := code_of_lowerEntry run
    · simp [Module.context] at split
    · have codes : m.Codes decl ∧ decl.signature.params = [] := by
        obtain ⟨decl', known', internal, bare⟩ := vetted.entry is_entry
        obtain rfl := Option.mem_unique known' known
        exact ⟨⟨Array.mem_of_getElem? known, internal⟩, bare⟩
      have three : [.stackAdjust .statics, .call decl.start, .halt] = before ++ i :: after := by
        simpa [Context.pushed, Module.context] using split
      rcases before with _ | ⟨_, _ | ⟨_, _ | ⟨_, _⟩⟩⟩
      · obtain ⟨rfl, _⟩ := List.cons.inj three
        exact .statics
      · simp only [List.cons_append, List.nil_append, List.cons.injEq] at three
        obtain ⟨rfl, rfl, _⟩ := three
        exact .entry codes.1 codes.2
      · simp only [List.cons_append, List.nil_append, List.cons.injEq] at three
        obtain ⟨_, _, rfl, _⟩ := three
        exact .halt
      · simp at three
  | external _ _ ih => exact ih split
  | @function decl rest c0 c1 range visits internal run ih =>
    have codes : m.Codes decl := ⟨by simpa using visits.suffix.subset List.mem_cons_self, internal⟩
    have piece := piece_of_visits (t := t) vetted visits internal run
    obtain ⟨first, frame, code, lays, _⟩ := piece.code
    rw [code, List.append_assoc] at split
    obtain ⟨later, old⟩ | ⟨earlier, rfl, new⟩ := split_append split
    · exact (ih old).mono piece.leads
    · obtain ⟨later, inside⟩ | ⟨beyond, rfl, last⟩ := split_append new
      · rw [inside] at lays
        exact .inner codes lays.of_split
      · obtain ⟨rfl, rfl⟩ : beyond = [] ∧ i = .ret := by
          cases beyond <;> simp_all
        rw [List.append_nil, ← List.append_assoc]
        exact .ret codes

end Module.Tracing

namespace Module

def untraced (m : Module) : m.Tracing where
  precise := False
  single _ := True
  site _ _ := True
  widths := nofun
  rounded := nofun
  unique := nofun
  sites _ _ _ _ _ := trivial

theorem labels_of_visits (vetted : m.Vetted) (visits : m.Visits decls c) :
    ∃ done, m.functions.toList = done ++ decls ∧ c.code.toList.filterMap Instr.label?
      = (done.filter fun decl => !decl.isExternal).flatMap Declaration.labels := by
  induction visits with
  | entry run =>
    refine ⟨[], rfl, ?_⟩
    obtain ⟨_, rfl⟩ | ⟨f, decl, _, _, rfl⟩ := code_of_lowerEntry run
    · rfl
    · rfl
  | @external decl rest c0 _ external ih =>
    obtain ⟨done, all, labels⟩ := ih
    exact ⟨done ++ [decl], by simp [all], by simp [labels, external]⟩
  | @function decl rest c0 c1 range visits internal run ih =>
    obtain ⟨done, all, labels⟩ := ih
    have piece := Tracing.piece_of_visits (t := m.untraced) vetted visits internal run
    obtain ⟨first, frame, code, _, own⟩ := piece.code
    refine ⟨done ++ [decl], by simp [all], ?_⟩
    rw [code, List.filterMap_append, List.filterMap_append, own, labels]
    simp [internal, Instr.label?]

theorem labels_lowerModule (vetted : m.Vetted) {ranges : List (Option (Nat × Nat))}
    (run : Runs (lowerModule m.functions m.entry) m.context ranges c) :
    c.code.toList.filterMap Instr.label? = m.labels := by
  obtain ⟨done, all, labels⟩ := labels_of_visits vetted (visits_lowerModule run)
  rw [labels, Module.labels, all, append_nil]

end Module

end RegisterBackend
