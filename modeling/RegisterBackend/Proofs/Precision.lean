import RegisterBackend.Proofs.Entry

/-!
Numbers of single precision stay single in registers. Two things can spoil it: a body that control
leaves at its end although it should return a single, and a call through a pointer to a function of
another signature.
-/
namespace RegisterBackend

open Gen Discipline List Option Signature

variable {before : List Instr} {decl : Declaration} {hw : Hardware} {i : Instr} {l : Link}
  {m : Module} {owner : Option Declaration} {q q' : Processor} {ranges : List (Option (Nat × Nat))}
  {s s' : MachineState} {decls : List Declaration} {functions : Array Declaration}
  {id label target : LabelId} {k index n : Nat} {items : List BodyItem} {c' c : Context}

namespace Double

/-- The pattern is one that rounding to single precision gives. -/
def IsSingle (bits : Word) : Prop := ∃ given, bits = roundToSingle given

theorem lt_two_pow_bitLength (n : Nat) : n < 2 ^ bitLength n := by
  unfold bitLength
  split
  · next zero => simp [zero]
  · exact Nat.lt_log2_self

theorem bitLength_le (small : n < 2 ^ k) : bitLength n ≤ k := by
  unfold bitLength
  split
  · exact Nat.zero_le k
  · next positive => exact (Nat.log2_lt positive).mpr small

theorem roundDiv_le (n d : Nat) : roundDiv n d ≤ n / d + 1 := by
  unfold roundDiv
  dsimp only
  split_ifs <;> omega

theorem scaleRound_le {e : Int} (scaled : bitLength n + e ≤ 24) : scaleRound n e ≤ 2 ^ 24 := by
  have digits := lt_two_pow_bitLength n
  unfold scaleRound
  split
  · next positive =>
    rw [Nat.shiftLeft_eq]
    calc n * 2 ^ e.toNat ≤ 2 ^ bitLength n * 2 ^ e.toNat := Nat.mul_le_mul_right _ digits.le
      _ = 2 ^ (bitLength n + e.toNat) := (Nat.pow_add ..).symm
      _ ≤ 2 ^ 24 := Nat.pow_le_pow_right (by decide) (by omega)
  · next negative =>
    have small : n < 2 ^ (-e).toNat * 2 ^ 24 := by
      rw [← Nat.pow_add]
      exact digits.trans_le (Nat.pow_le_pow_right (by decide) (by omega))
    have := Nat.div_lt_of_lt_mul small
    have := roundDiv_le n (2 ^ (-e).toNat)
    rw [Nat.one_shiftLeft]
    omega

def Coarse (bits : Word) : Prop := bits.toNat % 2 ^ 29 = 0

instance (bits : Word) : Decidable (Coarse bits) := inferInstanceAs (Decidable (_ = _))

theorem Coarse.or {a b : Word} (coarse : Coarse a) (coarse' : Coarse b) : Coarse (a ||| b) := by
  rw [Coarse, BitVec.toNat_or, Nat.or_mod_two_pow, coarse, coarse', Nat.or_zero]

theorem coarse_ofNat (whole : 2 ^ 29 ∣ n) : Coarse (BitVec.ofNat 64 n) := by
  rw [Coarse, BitVec.toNat_ofNat, Nat.mod_mod_of_dvd n (by decide)]
  exact Nat.mod_eq_zero_of_dvd whole

theorem coarse_signBit (negative : Bool) : Coarse (signBit negative) := by
  cases negative <;> decide

theorem coarse_infinityBits (negative : Bool) : Coarse (infinityBits negative) :=
  (coarse_signBit negative).or (coarse_ofNat (by decide))

theorem coarse_normalBits (negative : Bool) (u : Int) (small : n ≤ 2 ^ 24) :
    Coarse (normalBits negative n u) := by
  unfold normalBits
  split
  · exact coarse_signBit negative
  · refine (coarse_signBit negative).or (coarse_ofNat ?_)
    have whole : 2 ^ 29 ∣ n * 2 ^ (53 - bitLength n) := by
      obtain smaller | rfl := Nat.lt_or_eq_of_le small
      · have := bitLength_le smaller
        exact (Nat.pow_dvd_pow 2 (by omega)).trans (Nat.dvd_mul_left ..)
      · decide
    simp only [Nat.shiftLeft_eq]
    exact (Nat.dvd_add_right ((by decide : 2 ^ 29 ∣ 2 ^ 52).trans (Nat.dvd_mul_left ..))).mpr
      (Nat.dvd_sub whole (by decide))

theorem IsSingle.coarse {bits : Word} (single : IsSingle bits) : Coarse bits := by
  obtain ⟨given, rfl⟩ := single
  unfold roundToSingle
  split
  · refine (coarse_infinityBits _).or (coarse_ofNat ?_)
    rw [Nat.shiftLeft_eq]
    exact Nat.dvd_mul_left ..
  · next negative is_infinity =>
    have no_fraction : fractionField given = 0 := by
      unfold ofBits at is_infinity
      dsimp only at is_infinity
      split at is_infinity
      · cases is_infinity
      · split at is_infinity
        · assumption
        · cases is_infinity
      · cases is_infinity
    rw [fractionField, Nat.one_shiftLeft] at no_fraction
    rw [Coarse, ← Nat.mod_mod_of_dvd _ (by decide : 2 ^ 29 ∣ 2 ^ 52), no_fraction, Nat.zero_mod]
  · next negative mantissa exponent _ =>
    dsimp only
    split
    · exact coarse_infinityBits negative
    · exact coarse_normalBits negative _ (scaleRound_le (by omega))

end Double

/-- The machine keeps to singles where it should: what it widens is one, and the opposite of one is
one. -/
structure Hardware.Keeps (hw : Hardware) (single : Word → Prop) : Prop where
  widened : ∀ b, single (hw.double b)
  negated : ∀ {w}, single w → single (hw.floatNeg w)

section
variable {S : Scope} {c : Context} {F : Flow} {p : Placement} {r dst : Register} {w : Word}

theorem MachineState.set_int (float : r.bank = .float) (int : dst.IsInt) :
    (s.set dst w).registers r = s.registers r := by
  rw [registers_set, if_neg]
  rintro rfl
  cases float.symm.trans int.1

theorem Hardware.Keeps.fetch {single : Word → Prop} (keeps : hw.Keeps single)
    (float : r.bank = .float) (memory : Memory) (address : Word) :
    single (hw.fetch r.bank memory address 4) := by
  rw [float]
  exact keeps.widened _

theorem Instr.Fine.conveys (fine : i.Fine S c) (keeps : hw.Keeps F.single) {known : Register → Prop}
    (ok : i.execute hw p s = some s')
    (holds : ∀ r, r.bank = .float → known r → F.single (s.registers r)) (float : r.bank = .float)
    (conveyed : i.conveys F index known r) : F.single (s'.registers r) := by
  -- The register that is written is an integer register, the one in question, or another one.
  have int {dst : Register} {w : Word} (is_int : dst.IsInt) (known_r : known r) :
      F.single ((s.set dst w).registers r) := by
    rw [MachineState.set_int float is_int]
    exact holds r float known_r
  have fresh {dst : Register} {w : Word} {P : Prop} (written : r = dst → P → F.single w)
      (conveyed : if r = dst then P else known r) : F.single ((s.set dst w).registers r) := by
    rw [MachineState.registers_set]
    split at conveyed
    · next same =>
      rw [if_pos same]
      exact written same conveyed
    · next different =>
      rw [if_neg different]
      exact holds r float conveyed
  cases i <;> simp only [execute, Option.some.injEq, reduceCtorEq] at ok
  case label id => exact fine.elim
  case comment text => exact ok ▸ holds r float conveyed
  case location name pos frame => exact ok ▸ holds r float conveyed
  case movImm dst imm =>
    subst ok
    refine fresh ?_ conveyed
    rintro _ ⟨bits, rfl, single⟩
    exact single
  case mov dst src =>
    subst ok
    refine fresh (fun same known_src => holds src ?_ known_src) conveyed
    rw [← fine.2.2, ← same]
    exact float
  case alu op dst src => exact ok ▸ int fine.1 conveyed
  case aluImm op dst imm => exact ok ▸ int fine.1 conveyed
  case cmp lhs rhs cond => exact ok ▸ int fine.1 conveyed
  case cmpImm lhs imm cond => exact ok ▸ int fine conveyed
  case neg q => exact ok ▸ int fine conveyed
  case not q => exact ok ▸ int fine conveyed
  case mask q size => exact ok ▸ int fine conveyed
  case signExtend q size => exact ok ▸ int fine conveyed
  case floatAlu op dst src =>
    subst ok
    exact fresh (P := False) (fun _ => False.elim) (by rw [if_neg conveyed.1]; exact conveyed.2)
  case floatNeg q =>
    subst ok
    refine fresh (fun same known_q => keeps.negated (holds q (same ▸ float) known_q)) ?_
    split
    · next same => exact same ▸ conveyed
    · exact conveyed
  case floatNarrow q =>
    subst ok
    refine fresh (P := True) (fun _ _ => keeps.widened _) ?_
    split
    · trivial
    · next different => exact conveyed.resolve_left different
  case floatCmp dst lhs rhs cond => exact ok ▸ int fine.1 conveyed
  case intToFloat dst src signed =>
    subst ok
    exact fresh (P := False) (fun _ => False.elim) (by rw [if_neg conveyed.1]; exact conveyed.2)
  case floatToInt dst src signed => exact ok ▸ int fine.1 conveyed
  case loadStack dst slot size =>
    subst ok
    refine fresh ?_ conveyed
    rintro rfl rfl
    exact keeps.fetch float _ _
  case storeStack src slot size => exact ok ▸ holds r float conveyed
  case loadPtr dst ptr size =>
    subst ok
    refine fresh ?_ conveyed
    rintro rfl rfl
    exact keeps.fetch float _ _
  case storePtr ptr src size => exact ok ▸ holds r float conveyed
  case leaStack dst slot => exact ok ▸ int fine.1 conveyed
  case copyStack dst src size => exact ok ▸ holds r float conveyed
  case copyMem dst src size => exact ok ▸ holds r float conveyed
  case runtimeParam dst param =>
    cases param <;> simp only [Option.some.injEq, reduceCtorEq] at ok
    · exact ok ▸ int fine conveyed
    · exact ok ▸ int fine conveyed

end

/-- A machine and the instructions at which the calls that are under way go on, innermost first. -/
structure Thread where
  processor : Processor
  pending : List Nat

namespace Processor

def pushed (q : Processor) (w : Word) : Processor where
  state := q.state.write q.sp (Word.bytes w)
  sp := q.sp + 8
  pc := q.pc + 1

variable {code : List Instr}

theorem step?_cases (step : q.step? hw l code = some q') : ∃ i, code[q.pc]? = some i
    ∧ ((∃ target, (i = .jump target ∨ ∃ r w, i = .jumpIf r target w) ∧ q'.state = q.state
        ∧ labelIndex? code target = some q'.pc)
      ∨ q'.pc = q.pc + 1
      ∧ (((∃ amount, i = .stackAdjust amount) ∨ ∃ r target w, i = .jumpIf r target w)
          ∧ q'.state = q.state ∨ i.execute hw (l.placement q.sp) q.state = some q'.state)) := by
  unfold step? at step
  split at step
  · cases step
  · next amount fetched =>
    cases step
    exact ⟨_, fetched, .inr ⟨rfl, .inl ⟨.inl ⟨_, rfl⟩, rfl⟩⟩⟩
  · next target fetched =>
    obtain ⟨pc, found, rfl⟩ := map_eq_some_iff.mp step
    exact ⟨_, fetched, .inl ⟨_, .inl rfl, rfl, found⟩⟩
  · next r target whenNonzero fetched =>
    split at step
    · obtain ⟨pc, found, rfl⟩ := map_eq_some_iff.mp step
      exact ⟨_, fetched, .inl ⟨_, .inr ⟨_, _, rfl⟩, rfl, found⟩⟩
    · cases step
      exact ⟨_, fetched, .inr ⟨rfl, .inl ⟨.inr ⟨_, _, _, rfl⟩, rfl⟩⟩⟩
  · next i _ _ _ fetched =>
    obtain ⟨state, executed, rfl⟩ := map_eq_some_iff.mp step
    exact ⟨_, fetched, .inr ⟨rfl, .inr executed⟩⟩

end Processor

/-- One step of a machine that also calls and returns. A host function may do anything, but where
it is called with a signature that gives a single, it gives one. -/
inductive Thread.Moves (hw : Hardware) (l : Link) (code : List Instr) (single : Word → Prop)
    (site : Nat → Signature → Prop) : Thread → Thread → Prop
  | inner {q q' : Processor} {pending : List Nat} : q.step? hw l code = some q' →
      Moves hw l code single site ⟨q, pending⟩ ⟨q', pending⟩
  | push {q : Processor} {r : Register} {pending : List Nat} : code[q.pc]? = some (.push r) →
      Moves hw l code single site ⟨q, pending⟩ ⟨q.pushed (q.state.registers r), pending⟩
  | pushImm {q : Processor} {bits : Word} {pending : List Nat} :
      code[q.pc]? = some (.pushImm bits) →
      Moves hw l code single site ⟨q, pending⟩ ⟨q.pushed bits, pending⟩
  | call {q q' : Processor} {back : Word} {pending : List Nat} : q.Calls l code back q' →
      Moves hw l code single site ⟨q, pending⟩ ⟨q', (q.pc + 1) :: pending⟩
  | host {q q' : Processor} {dst : Register} {pending : List Nat} :
      code[q.pc]? = some (.callExternal dst) →
      q'.pc = q.pc + 1 →
      (∀ {sig r}, site q.pc sig → sig.Yields r → single (q'.state.registers r)) →
      Moves hw l code single site ⟨q, pending⟩ ⟨q', pending⟩
  | ret {q : Processor} {pc : Nat} {pending : List Nat} : code[q.pc]? = some .ret →
      Moves hw l code single site ⟨q, pc :: pending⟩ ⟨{ q with sp := q.sp - 8, pc }, pending⟩

namespace Module

/-- The instruction of that number was written for a call with the signature. -/
def Site (m : Module) (index : Nat) (sig : Signature) : Prop :=
  ∃ decl later item rest c c', m.Reaches decl later (item :: rest) c
    ∧ Runs (lowerItem m.functions decl item rest.isEmpty) c () c'
    ∧ item.operation.CallsWith m.types m.functions sig ∧ c.code.size ≤ index ∧ index < c'.code.size

/-- A step that takes no advantage of what is left to the program: a pointer that is called leads to
a function of the signature, and control leaves the body of a function that gives a single only by a
return. -/
structure Proper (m : Module) (code : List Instr) (q q' : Processor) : Prop where
  pointer : ∀ {r}, code[q.pc]? = some (.callPtr r) → ∃ decl, m.Codes decl
    ∧ labelIndex? code decl.start = some q'.pc ∧ ∀ {sig}, m.Site q.pc sig → sig = decl.signature
  leave : ∀ {decl}, m.Codes decl → decl.endsOpen = true → decl.signature.result.isSingle = true →
    code[q'.pc]? = some (.label decl.epilogue) → ∃ target, code[q.pc]? = some (.jump target)

def Proceeds (m : Module) (hw : Hardware) (l : Link) (code : List Instr) (single : Word → Prop)
    (thread thread' : Thread) : Prop :=
  thread.Moves hw l code single m.Site thread' ∧ m.Proper code thread.processor thread'.processor

/-- Where a run begins: at the start of a program with an entry, or at a function that is given
singles where it expects them. -/
inductive Begins (m : Module) (code : List Instr) (single : Word → Prop) : Thread → Prop
  | entry {s : MachineState} {sp : Word} :
      m.entry.isSome = true → Begins m code single ⟨⟨s, sp, 0⟩, []⟩
  | function {q : Processor} {decl : Declaration} :
      m.Codes decl → labelIndex? code decl.start = some q.pc →
      (∀ {r}, decl.signature.Carries r → single (q.state.registers r)) →
      Begins m code single ⟨q, []⟩

end Module

namespace Module.Tracing
variable (t : m.Tracing)

def around : Option Declaration → Scope
  | some decl => t.scope decl
  | none => { t.scope default with targets := fun _ => False }

theorem toFlow_around (owner : Option Declaration) : (t.around owner).toFlow = t.flow := by
  cases owner <;> rfl

/-- The code of the module has that of the function, or that which calls the entry, as a part. -/
structure Stretch (c : Context) (owner : Option Declaration) (before inner after : List Instr) :
    Prop where
  codes : ∀ {decl}, owner = some decl → m.Codes decl
  code : c.code.toList = before ++ inner ++ owner.elim .halt (fun _ => .ret) :: after
  lays : (t.around owner).Lays c before inner
  labels : inner.filterMap Instr.label? = owner.elim [] Declaration.labels
  closing : ∀ {decl}, owner = some decl → ∃ first frame, inner = first ++ decl.departure frame

def Within (c : Context) (owner : Option Declaration) (k : Nat) : Prop :=
  ∃ before inner after, t.Stretch c owner before inner after ∧ before.length ≤ k
    ∧ k ≤ before.length + inner.length

variable {t} {c : Context} {inner after : List Instr}

theorem Stretch.mono (stretch : t.Stretch c owner before inner after) (leads : Leads c c') :
    ∃ after, t.Stretch c' owner before inner after := by
  obtain ⟨more, code⟩ := leads.code
  refine ⟨after ++ more, stretch.codes, ?_, stretch.lays.mono leads,
    stretch.labels, stretch.closing⟩
  rw [← code, stretch.code]
  simp

section
variable (vetted : m.Vetted)
include vetted

theorem stretch_of_visits (visits : m.Visits decls c) :
    ∃ done, m.functions.toList = done ++ decls ∧ ∀ decl ∈ done, decl.isExternal = false →
      ∃ before inner after, t.Stretch c (some decl) before inner after := by
  induction visits with
  | entry run => exact ⟨[], rfl, nofun⟩
  | @external decl rest c0 _ external ih =>
    obtain ⟨done, all, stretches⟩ := ih
    refine ⟨done ++ [decl], by simp [all], fun other member internal => ?_⟩
    obtain old | new := mem_append.mp member
    · exact stretches other old internal
    · cases (mem_singleton.mp new ▸ internal).symm.trans external
  | @function decl rest c0 c1 range visits internal run ih =>
    obtain ⟨done, all, stretches⟩ := ih
    have codes : m.Codes decl := ⟨by simpa using visits.suffix.subset mem_cons_self, internal⟩
    have piece := piece_of_visits (t := t) vetted visits internal run
    refine ⟨done ++ [decl], by simp [all], fun other member internal' => ?_⟩
    obtain old | new := mem_append.mp member
    · obtain ⟨before, inner, after, stretch⟩ := stretches other old internal'
      exact ⟨before, inner, stretch.mono piece.leads⟩
    · obtain rfl := mem_singleton.mp new
      obtain ⟨first, frame, code, lays, labels⟩ := piece.code
      refine ⟨_, _, [], ⟨?_, code, lays, labels, ?_⟩⟩
      · rintro _ ⟨⟩
        exact codes
      · rintro _ ⟨⟩
        exact ⟨first, frame, rfl⟩

theorem stretch_entry (visits : m.Visits decls c) (starts : m.entry.isSome = true) :
    ∃ (decl : Declaration) (after : List Instr),
      t.Stretch c none [] [.stackAdjust .statics, .call decl.start] after := by
  induction visits with
  | entry run =>
    obtain ⟨no_entry, _⟩ | ⟨f, decl, is_entry, known, rfl⟩ := code_of_lowerEntry run
    · rw [no_entry] at starts
      cases starts
    · obtain ⟨decl', known', internal, bare⟩ := vetted.entry is_entry
      obtain rfl := mem_unique known' known
      have codes : m.Codes decl' := ⟨Array.mem_of_getElem? known, internal⟩
      refine ⟨decl', [], ⟨nofun, rfl, ?_, rfl, nofun⟩⟩
      refine ⟨nofun, ⟨⟨decl', codes, rfl⟩, fun r arrives => ?_⟩, trivial⟩
      obtain ⟨_, ty, member, _⟩ := carries_of_arrives codes arrives
      rw [bare] at member
      cases member
  | external _ _ ih => exact ih
  | function visits internal run ih =>
    obtain ⟨decl, after, stretch⟩ := ih
    exact ⟨decl, stretch.mono (piece_of_visits (t := t) vetted visits internal run).leads⟩

end

theorem Stretch.within_label (stretch : t.Stretch c owner before inner after)
    (distinct : (c.code.toList.filterMap Instr.label?).Nodup)
    (member : label ∈ owner.elim [] Declaration.labels)
    (placed : c.code.toList[k]? = some (.label label)) : t.Within c owner k := by
  rw [← stretch.labels] at member
  have listed {list : List Instr} {j : Nat} (there : list[j]? = some (.label label)) :
      label ∈ list.filterMap Instr.label? := mem_filterMap.mpr ⟨_, List.mem_of_getElem? there, rfl⟩
  rw [stretch.code, filterMap_append, filterMap_append] at distinct
  obtain ⟨early, _, late⟩ := nodup_append.mp distinct
  have low : before.length ≤ k := by
    by_contra small
    rw [stretch.code, append_assoc, getElem?_append_left (by omega)] at placed
    exact (nodup_append.mp early).2.2 _ (listed placed) _ member rfl
  have high : k < before.length + inner.length := by
    by_contra large
    rw [stretch.code, getElem?_append_right (by rw [length_append]; omega)] at placed
    exact late _ (mem_append_right _ member) _ (listed placed) rfl
  exact ⟨before, inner, after, stretch, low, by omega⟩

theorem Within.cases (within : t.Within c owner k) :
    (∃ i, c.code.toList[k]? = some i ∧ i.Stands (t.around owner) c (c.code.toList.take k)
      ∧ t.Within c owner (k + 1))
      ∨ (∃ decl, owner = some decl ∧ m.Codes decl ∧ c.code.toList[k]? = some .ret ∧ ∃ earlier frame,
          c.code.toList.take k = earlier ++ decl.departure frame)
      ∨ c.code.toList[k]? = some .halt := by
  obtain ⟨before, inner, after, stretch, low, high⟩ := within
  obtain inside | rfl := Nat.lt_or_eq_of_le high
  · obtain ⟨j, rfl⟩ := Nat.exists_eq_add_of_le low
    have small : j < inner.length := by omega
    have split : inner = inner.take j ++ inner[j] :: inner.drop (j + 1) := by simp
    have lays := stretch.lays
    rw [split] at lays
    refine .inl ⟨inner[j], ?_, ?_, before, inner, after, stretch, by omega, by omega⟩
    · rw [stretch.code, append_assoc, getElem?_append_right (by omega)]
      simp [getElem?_append_left, small]
    · have taken : c.code.toList.take (before.length + j) = before ++ inner.take j := by
        rw [stretch.code, append_assoc, take_length_add_append, take_append_of_le_length small.le]
      rw [taken]
      exact lays.of_split
  · have last : c.code.toList[before.length + inner.length]?
        = some (owner.elim .halt fun _ => .ret) := by
      rw [stretch.code, ← length_append, getElem?_append_right le_rfl]
      simp
    cases owner with
    | none => exact .inr (.inr last)
    | some decl =>
      obtain ⟨first, frame, rfl⟩ := stretch.closing rfl
      refine .inr (.inl ⟨decl, rfl, stretch.codes rfl, last, before ++ first, frame, ?_⟩)
      rw [stretch.code, ← length_append, take_left]
      simp

theorem Within.stands (within : t.Within c owner k) (fetched : c.code.toList[k]? = some i)
    (inner : i ≠ .ret ∧ i ≠ .halt) :
    i.Stands (t.around owner) c (c.code.toList.take k) ∧ t.Within c owner (k + 1) := by
  obtain ⟨i', fetched', found⟩ | ⟨_, _, _, fetched', _⟩ | fetched' := within.cases
  · cases fetched.symm.trans fetched'
    exact found
  · exact (inner.1 (mem_unique fetched fetched')).elim
  · exact (inner.2 (mem_unique fetched fetched')).elim

end Module.Tracing

theorem length_take_of_fetched {code : List Instr} (fetched : code[k]? = some i) :
    (code.take k).length = k := by
  obtain ⟨small, _⟩ := List.getElem?_eq_some_iff.mp fetched
  rw [List.length_take]
  exact Nat.min_eq_left (Nat.le_of_lt small)

theorem getElem?_labelIndex? {code : List Instr} (found : labelIndex? code label = some k) :
    code[k]? = some (.label label) := by
  obtain ⟨small, is_label, _⟩ := findIdx?_eq_some_iff_getElem.mp found
  rw [getElem?_eq_getElem small, LawfulBEq.eq_of_beq is_label]

namespace Flow
variable (F : Flow)

def Holds (before : List Instr) (s : MachineState) : Prop :=
  ∀ r, r.bank = .float → F.knows before.reverse r → F.single (s.registers r)

/-- What is relied on at the instruction of that number is true. Control may come to a label from
elsewhere, so only what it promises is relied on there. -/
def Meets (code : List Instr) (k : Nat) (s : MachineState) : Prop :=
  match code[k]? with
  | some (.label id) => ∀ r, r.bank = .float → F.arrives id r → F.single (s.registers r)
  | _ => F.Holds (code.take k) s

variable {F} {code : List Instr}

theorem meets_label (placed : code[k]? = some (.label id)) :
    F.Meets code k s ↔ ∀ r, r.bank = .float → F.arrives id r → F.single (s.registers r) := by
  simp only [Meets, placed]

theorem meets_iff_holds (fetched : code[k]? = some i) (unlabelled : i.label? = none) :
    F.Meets code k s ↔ F.Holds (code.take k) s := by
  unfold Meets
  split
  · next id placed =>
    cases fetched.symm.trans placed
    cases unlabelled
  · rfl

theorem holds_take_succ (begun : F.since = 0) (fetched : code[k]? = some i) :
    F.Holds (code.take (k + 1)) s ↔ ∀ r, r.bank = .float →
      i.conveys F k (F.knows (code.take k).reverse) r → F.single (s.registers r) := by
  obtain ⟨small, rfl⟩ := List.getElem?_eq_some_iff.mp fetched
  have reversed : (code.take (k + 1)).reverse = code[k] :: (code.take k).reverse := by
    rw [List.take_add_one, fetched]
    simp
  have length : (code.take k).reverse.length = k := by
    rw [List.length_reverse, length_take_of_fetched fetched]
  simp only [Holds, reversed, Flow.knows, begun, length, Nat.not_lt_zero, ↓reduceIte]

end Flow

namespace Module.Tracing
variable (t : m.Tracing) (c : Context)

/-- The calls under way go on as they should, once the function that runs gives its result. -/
inductive Awaits : Option Declaration → List Nat → Prop
  | none {owner : Option Declaration} : Awaits owner []
  | call {owner : Option Declaration} {decl : Declaration} {k : Nat} {pending : List Nat} :
      t.Within c owner (k + 1) →
      (∀ {s}, (∀ {r}, decl.signature.Yields r → t.single (s.registers r)) →
        t.flow.Holds (c.code.toList.take (k + 1)) s) →
      Awaits owner pending → Awaits (some decl) ((k + 1) :: pending)

/-- The machine runs code of a function, what is relied on there is true, and so it will be where
calls under way go on. -/
structure Follows (owner : Option Declaration) (thread : Thread) : Prop where
  within : t.Within c owner thread.processor.pc
  meets : t.flow.Meets c.code.toList thread.processor.pc thread.processor.state
  awaits : t.Awaits c owner thread.pending

variable {t c}

theorem Within.meets (within : t.Within c owner (k + 1))
    (holds : t.flow.Holds (c.code.toList.take (k + 1)) s)
    (stays : ∀ {decl}, m.Codes decl → decl.endsOpen = true → decl.signature.result.isSingle = true →
      c.code.toList[k + 1]? ≠ some (.label decl.epilogue)) :
      t.flow.Meets c.code.toList (k + 1) s := by
  obtain ⟨i, fetched, stands, _⟩ | ⟨_, _, _, fetched, _⟩ | fetched := within.cases
  · cases i with
    | label id =>
      refine (Flow.meets_label fetched).mpr fun r float arrives => ?_
      obtain nothing | known | ⟨decl, listed, internal, rfl, is_open⟩ := stands
      · obtain ⟨small, _⟩ := List.getElem?_eq_some_iff.mp fetched
        have length := congrArg List.length nothing
        rw [List.length_take, List.length_nil] at length
        omega
      · rw [toFlow_around] at known
        exact holds r float (known r arrives)
      · rw [toFlow_around] at listed
        obtain ⟨_, yields⟩ := yields_of_arrives ⟨listed, internal⟩ arrives
        exact (stays ⟨listed, internal⟩ is_open yields.2 fetched).elim
    | _ => exact (Flow.meets_iff_holds fetched rfl).mpr holds
  · exact (Flow.meets_iff_holds fetched rfl).mpr holds
  · exact (Flow.meets_iff_holds fetched rfl).mpr holds

section
variable {thread thread' : Thread} {pending : List Nat}

theorem Follows.next (follows : t.Follows c owner ⟨q, pending⟩)
    (beyond : t.Within c owner (q.pc + 1)) (proper : m.Proper c.code.toList q q')
    (forth : q'.pc = q.pc + 1) (straight : ∀ target, c.code.toList[q.pc]? ≠ some (.jump target))
    (holds : t.flow.Holds (c.code.toList.take (q.pc + 1)) q'.state) :
    t.Follows c owner ⟨q', pending⟩ where
  within := by
    rw [forth]
    exact beyond
  meets := by
    rw [forth]
    refine beyond.meets holds fun codes is_open single placed => ?_
    obtain ⟨target, jumps⟩ := proper.leave codes is_open single (by rw [forth]; exact placed)
    exact straight target jumps
  awaits := follows.awaits

theorem Follows.jump (follows : t.Follows c owner ⟨q, pending⟩)
    (distinct : (c.code.toList.filterMap Instr.label?).Nodup)
    (known : (t.around owner).targets target)
    (found : labelIndex? c.code.toList target = some q'.pc)
    (meets : ∀ r, r.bank = .float → t.flow.arrives target r → t.single (q'.state.registers r)) :
    t.Follows c owner ⟨q', pending⟩ where
  within := by
    obtain ⟨before, inner, after, stretch, _⟩ := follows.within
    refine stretch.within_label distinct ?_ (getElem?_labelIndex? found)
    cases owner with
    | none => exact known.elim
    | some decl =>
      refine Declaration.mem_labels.mpr (known.imp_left ?_)
      rintro rfl
      exact mem_cons_of_mem _ mem_cons_self
  meets := (Flow.meets_label (getElem?_labelIndex? found)).mpr meets
  awaits := follows.awaits

section
variable (vetted : m.Vetted) (visits : m.Visits [] c)
  (distinct : (c.code.toList.filterMap Instr.label?).Nodup)
include vetted visits distinct

theorem within_start (codes : m.Codes decl)
    (found : labelIndex? c.code.toList decl.start = some k) : t.Within c (some decl) k := by
  obtain ⟨done, all, stretches⟩ := stretch_of_visits (t := t) vetted visits
  have member : decl ∈ done := by
    rw [← append_nil done, ← all]
    exact Array.mem_toList_iff.mpr codes.1
  obtain ⟨before, inner, after, stretch⟩ := stretches decl member codes.2
  exact stretch.within_label distinct mem_cons_self (getElem?_labelIndex? found)

theorem follows_start (codes : m.Codes decl)
    (found : labelIndex? c.code.toList decl.start = some q.pc)
    (carried : ∀ {r}, decl.signature.Carries r → t.single (q.state.registers r))
    (awaits : t.Awaits c (some decl) pending) : t.Follows c (some decl) ⟨q, pending⟩ where
  within := within_start vetted visits distinct codes found
  meets := (Flow.meets_label (getElem?_labelIndex? found)).mpr fun _ _ arrives =>
    carried (carries_of_arrives codes arrives).2
  awaits := awaits

end

section
variable (keeps : hw.Keeps t.single) (distinct : (c.code.toList.filterMap Instr.label?).Nodup)
include keeps distinct

theorem Follows.inner (follows : t.Follows c owner ⟨q, pending⟩)
    (step : q.step? hw l c.code.toList = some q') (proper : m.Proper c.code.toList q q') :
    t.Follows c owner ⟨q', pending⟩ := by
  obtain ⟨i, fetched, moved⟩ := Processor.step?_cases step
  obtain ⟨i', fetched', stands, beyond⟩ | ⟨_, _, _, fetched', _⟩ | fetched' := follows.within.cases
  · obtain rfl := mem_unique fetched fetched'
    obtain ⟨target, jumps, same, found⟩ | ⟨forth, passes⟩ := moved
    · have sound : (t.around owner).targets target
          ∧ ∀ r, t.flow.arrives target r → t.flow.knows (c.code.toList.take q.pc).reverse r := by
        rw [← toFlow_around t owner]
        obtain rfl | ⟨r, whenNonzero, rfl⟩ := jumps
        · exact stands
        · exact ⟨stands.1.2, stands.2⟩
      have unlabelled : i.label? = none := by
        obtain rfl | ⟨r, whenNonzero, rfl⟩ := jumps <;> rfl
      have holds := (Flow.meets_iff_holds fetched unlabelled).mp follows.meets
      refine follows.jump distinct sound.1 found fun r float arrives => ?_
      rw [same]
      exact holds r float (sound.2 r arrives)
    · have straight : ∀ target, c.code.toList[q.pc]? ≠ some (.jump target) := by
        rintro target jumps
        cases fetched.symm.trans jumps
        simp [Instr.execute] at passes
      refine follows.next beyond proper forth straight
        ((Flow.holds_take_succ rfl fetched).mpr fun r float => ?_)
      obtain ⟨passes, same⟩ | executed := passes
      · rw [same]
        obtain ⟨amount, rfl⟩ | ⟨cond, target, whenNonzero, rfl⟩ := passes
        · exact (Flow.meets_iff_holds fetched rfl).mp follows.meets r float
        · exact (Flow.meets_iff_holds fetched rfl).mp follows.meets r float
      · cases i with
        | label id =>
          rw [← Option.some.inj executed]
          exact (Flow.meets_label fetched).mp follows.meets r float
        | stackAdjust amount => cases executed
        | _ =>
          exact stands.1.conveys keeps executed
            ((Flow.meets_iff_holds fetched rfl).mp follows.meets) float
  · cases fetched.symm.trans fetched'
    simp [Instr.execute] at moved
  · cases fetched.symm.trans fetched'
    simp [Instr.execute] at moved

end

theorem starts_around (known : (t.around owner).starts label) :
    ∃ callee, m.Codes callee ∧ label = callee.start := by
  cases owner <;> exact known

section
variable {back : Word} (vetted : m.Vetted) (visits : m.Visits [] c) (precise : t.precise)
  (sites : ∀ {index sig}, t.site index sig → m.Site index sig)
  (distinct : (c.code.toList.filterMap Instr.label?).Nodup)
include vetted visits precise sites distinct

theorem Follows.call (follows : t.Follows c owner ⟨q, pending⟩)
    (calls : q.Calls l c.code.toList back q') (proper : m.Proper c.code.toList q q') :
    ∃ decl, t.Follows c (some decl) ⟨q', (q.pc + 1) :: pending⟩ := by
  have holds {i : Instr} (fetched : c.code.toList[q.pc]? = some i) (unlabelled : i.label? = none) :=
    (Flow.meets_iff_holds fetched unlabelled).mp follows.meets
  cases calls with
  | @label target pc fetched found =>
    obtain ⟨⟨known, sound⟩, beyond⟩ := follows.within.stands fetched (by simp)
    simp only [Instr.Sound, toFlow_around] at sound
    obtain ⟨decl, codes, rfl⟩ := starts_around known
    refine ⟨decl, follows_start vetted visits distinct codes found (fun {r} carries => ?_)
      (.call beyond ?_ follows.awaits)⟩
    · exact holds fetched rfl r (float_of_carries carries)
        (sound r ⟨precise, decl, codes, .inl ⟨rfl, carries⟩⟩)
    · intro s yielded
      refine (Flow.holds_take_succ rfl fetched).mpr fun r _ conveyed => ?_
      obtain ⟨other, codes', same, yields⟩ := conveyed
      obtain rfl :=
        eq_of_mem_labels (t.unique precise) codes codes' mem_cons_self (same ▸ mem_cons_self)
      exact yielded yields
  | @pointer pointer target pc fetched _ found =>
    obtain ⟨⟨_, sig, here, sound⟩, beyond⟩ := follows.within.stands fetched (by simp)
    simp only [toFlow_around, length_take_of_fetched fetched] at here sound
    obtain ⟨decl, codes, start, same⟩ := proper.pointer fetched
    obtain rfl := same (sites here)
    refine ⟨decl, follows_start vetted visits distinct codes start (fun {r} carries => ?_)
      (.call beyond ?_ follows.awaits)⟩
    · exact holds fetched rfl r (float_of_carries carries) (sound r precise carries)
    · intro s yielded
      refine (Flow.holds_take_succ rfl fetched).mpr fun r _ conveyed => ?_
      obtain ⟨sig, here', yields⟩ := conveyed
      exact yielded (same (sites here') ▸ yields)

end

theorem knows_of_return (precise : t.precise) (codes : m.Codes decl) {earlier : List Instr}
    {frame : FrameId} (split : before = earlier ++ decl.departure frame) {r : Register}
    (yields : decl.signature.Yields r) : t.flow.knows before.reverse r := by
  have promised : t.flow.arrives decl.epilogue r := ⟨precise, decl, codes, .inr ⟨rfl, yields⟩⟩
  rw [split]
  simpa [Flow.knows, Instr.conveys, flow] using promised

theorem Follows.ret {sp : Word} (precise : t.precise)
    (follows : t.Follows c owner ⟨q, k :: pending⟩) (fetched : c.code.toList[q.pc]? = some .ret)
    (proper : m.Proper c.code.toList q { q with sp, pc := k }) :
    ∃ caller, t.Follows c caller ⟨{ q with sp, pc := k }, pending⟩ := by
  obtain ⟨i, fetched', stands, _⟩ | ⟨decl, rfl, codes, _, earlier, frame, split⟩ | fetched' :=
    follows.within.cases
  · cases fetched.symm.trans fetched'
    exact stands.1.elim
  · have holds := (Flow.meets_iff_holds fetched rfl).mp follows.meets
    cases follows.awaits with
    | @call caller _ k _ within back awaits =>
      refine ⟨caller, within, within.meets (back fun {r} yields => ?_)
        fun codes is_open single placed => ?_, awaits⟩
      · exact holds r (float_of_yields yields) (knows_of_return precise codes split yields)
      · obtain ⟨target, jumps⟩ := proper.leave codes is_open single placed
        cases fetched.symm.trans jumps
  · cases fetched.symm.trans fetched'

theorem Follows.pass (follows : t.Follows c owner ⟨q, pending⟩)
    (fetched : c.code.toList[q.pc]? = some i) (ends : i ≠ .ret ∧ i ≠ .halt)
    (straight : ∀ target, i ≠ .jump target) (proper : m.Proper c.code.toList q q')
    (forth : q'.pc = q.pc + 1) (holds : t.flow.Holds (c.code.toList.take (q.pc + 1)) q'.state) :
    t.Follows c owner ⟨q', pending⟩ := by
  refine follows.next (follows.within.stands fetched ends).2 proper forth
    (fun target jumps => ?_) holds
  exact straight target (mem_unique fetched jumps)

section
variable (vetted : m.Vetted) (visits : m.Visits [] c) (precise : t.precise)
  (sites : ∀ {index sig}, t.site index sig → m.Site index sig) (keeps : hw.Keeps t.single)
  (distinct : (c.code.toList.filterMap Instr.label?).Nodup)
include vetted visits precise sites keeps distinct

theorem Follows.step (follows : t.Follows c owner thread)
    (proceeds : m.Proceeds hw l c.code.toList t.single thread thread') :
    ∃ owner', t.Follows c owner' thread' := by
  obtain ⟨moves, proper⟩ := proceeds
  cases moves with
  | inner step => exact ⟨owner, follows.inner keeps distinct step proper⟩
  | push fetched | pushImm fetched =>
    have holds := (Flow.meets_iff_holds fetched rfl).mp follows.meets
    refine ⟨owner, follows.pass fetched (by simp) (by simp) proper rfl ?_⟩
    exact (Flow.holds_take_succ rfl fetched).mpr holds
  | call calls =>
    obtain ⟨decl, follows'⟩ := follows.call vetted visits precise sites distinct calls proper
    exact ⟨some decl, follows'⟩
  | host fetched forth given =>
    refine ⟨owner, follows.pass fetched (by simp) (by simp) proper forth ?_⟩
    refine (Flow.holds_take_succ rfl fetched).mpr fun r _ conveyed => ?_
    obtain ⟨sig, here, yields⟩ := conveyed
    exact given (sites here) yields
  | ret fetched => exact follows.ret precise fetched proper

theorem follows_of_run {start : Thread} (begins : m.Begins c.code.toList t.single start)
    (run : Relation.ReflTransGen (m.Proceeds hw l c.code.toList t.single) start thread) :
    ∃ owner, t.Follows c owner thread := by
  induction run with
  | refl =>
    cases begins with
    | entry starts =>
      obtain ⟨decl, after, stretch⟩ := stretch_entry (t := t) vetted visits starts
      refine ⟨none, ⟨[], _, after, stretch, le_rfl, Nat.zero_le _⟩, ?_, .none⟩
      have first : c.code.toList[0]? = some (.stackAdjust .statics) := by
        rw [stretch.code]
        rfl
      exact (Flow.meets_iff_holds first rfl).mpr fun _ _ => False.elim
    | function codes found carried =>
      exact ⟨_, follows_start vetted visits distinct codes found carried .none⟩
  | tail _ step ih =>
    obtain ⟨owner, follows⟩ := ih
    exact follows.step vetted visits precise sites keeps distinct step

end

end

end Module.Tracing

theorem Gen.Runs.unique {α : Type} {x : Gen α} {c1 c2 : Context} {a b : α} (first : Runs x c a c1)
    (second : Runs x c b c2) : c1 = c2 := (Prod.mk.inj (first.symm.trans second)).2

theorem code_lowerFunction {range : Nat × Nat}
    (run : Runs (lowerFunction functions decl) c range c') :
    ∃ frame body c1 c2, decl.frame = some frame
      ∧ decl.body = some body ∧ Runs (lowerPrologue decl frame)
      { c with currentFrame := some frame } () c1
      ∧ Runs (lowerBody functions decl body) c1 () c2 ∧ c.code.toList <+: c1.code.toList
      ∧ c2.code.toList <+: c'.code.toList := by
  obtain ⟨frame, body, c1, c2, c3, c4, is_frame, is_body, entered, lowered, retired, left, rfl⟩ :=
    runs_lowerFunction_steps run
  have first := Leads.of_walks (walks_lowerPrologue (fun _ => trivial)) entered
  have third := Leads.of_walks (walks_ite (fun _ => walks_retireRegisters)
    (fun _ => walks_pure _)) retired
  have fourth := Leads.of_walks (walks_lowerEpilogue decl frame) left
  exact ⟨frame, body, c1, c2, is_frame, is_body, entered, lowered, first.code,
    third.code.trans fourth.code⟩

theorem code_lowerFunctions (run : Runs (lowerFunctions functions decls) c ranges c') :
    c.code.toList <+: c'.code.toList := by
  induction decls generalizing c ranges with
  | nil =>
    obtain ⟨_, rfl⟩ := runs_pure.mp run
    exact prefix_rfl
  | cons decl rest ih =>
    obtain ⟨_, _, more⟩ | ⟨_, _, _, _, lowered, more⟩ := runs_lowerFunctions_cons run
    · exact ih more
    · obtain ⟨_, _, _, _, _, _, _, inner, begun, ended⟩ := code_lowerFunction lowered
      exact begun.trans ((leads_lowerBody inner).code.trans (ended.trans (ih more)))

namespace Module
variable {c c0 : Context}

section
variable (run : Runs (lowerModule m.functions m.entry) m.context ranges c)
include run

theorem Visits.completes (visits : m.Visits decls c0) :
    ∃ ranges, Runs (lowerFunctions m.functions decls) c0 ranges c := by
  induction visits with
  | entry entered =>
    obtain ⟨_, c1, entered', lowered⟩ := runs_bind.mp run
    rw [entered.unique entered']
    exact ⟨_, lowered⟩
  | external _ external ih =>
    obtain ⟨_, ran⟩ := ih
    obtain ⟨_, more⟩ | ⟨internal, _⟩ := runs_lowerFunctions_cons ran
    · exact more
    · cases external.symm.trans internal
  | function _ internal lowered ih =>
    obtain ⟨_, ran⟩ := ih
    obtain ⟨external, _⟩ | ⟨_, _, _, ranges, lowered', more⟩ := runs_lowerFunctions_cons ran
    · cases internal.symm.trans external
    · rw [lowered.unique lowered']
      exact ⟨ranges, more⟩

theorem Reaches.completes (reaches : m.Reaches decl later items c0) :
    ∃ c1, Runs (lowerBody m.functions decl items) c0 () c1 ∧ c1.code.toList <+: c.code.toList := by
  induction reaches with
  | body visits internal is_frame is_body entered =>
    obtain ⟨_, ran⟩ := visits.completes run
    obtain ⟨external, _⟩ | ⟨_, _, _, _, lowered, more⟩ := runs_lowerFunctions_cons ran
    · cases internal.symm.trans external
    · obtain ⟨_, _, c1, c2, is_frame', is_body', entered', inner, _, ended⟩ :=
        code_lowerFunction lowered
      cases is_frame.symm.trans is_frame'
      cases is_body.symm.trans is_body'
      rw [entered.unique entered']
      exact ⟨c2, inner, ended.trans (code_lowerFunctions more)⟩
  | item _ lowered ih =>
    obtain ⟨c1, ran, ended⟩ := ih
    obtain ⟨_, _, lowered', more⟩ := runs_bind.mp ran
    rw [lowered.unique lowered']
    exact ⟨c1, more, ended⟩

theorem Reaches.code (reaches : m.Reaches decl later items c0) :
    c.code.toList.take c0.code.size = c0.code.toList := by
  obtain ⟨c1, ran, ended⟩ := reaches.completes run
  exact (prefix_iff_eq_take.mp ((leads_lowerBody ran).code.trans ended)).symm

end

theorem Reaches.sorted (t : m.Tracing) (vetted : m.Vetted)
    (reaches : m.Reaches decl later items c) :
    m.Codes decl ∧ (∀ item ∈ items, item.operation ∈ decl.operations)
      ∧ c.Sorted (t.scope decl) none := by
  induction reaches with
  | @body frame body c0 c1 visits internal is_frame is_body entered =>
    have codes : m.Codes decl := ⟨by simpa using visits.suffix.subset mem_cons_self, internal⟩
    refine ⟨codes, fun item member => operations_of_body is_body ▸ mem_map_of_mem member, ?_⟩
    exact ((Tracing.pauses_of_visits (t := t) vetted visits).laid_lowerPrologue vetted codes
      is_frame entered).2.sorted
  | item reaches lowered ih =>
    obtain ⟨codes, members, sorted⟩ := ih
    rw [forall_mem_cons] at members
    exact ⟨codes, members.2,
      (Tracing.laid_lowerItem vetted codes reaches members.1 sorted lowered).1.sorted⟩

/-- Float registers hold singles wherever they should, when the machine is about to execute an
instruction of the module. -/
structure Precise (m : Module) (code : List Instr) (single : Word → Prop)
    (q : Processor) : Prop where
  /-- Between two operations, in the register of a value of single precision. -/
  bound : ∀ {decl later items c i r v}, m.Reaches decl later items c → q.pc = c.code.size →
    code[q.pc]? = some i →
    i.label? = none → c.registers.occupant? r = some v → (m.types v).isSingle = true →
    single (q.state.registers r)
  /-- At the call of a function of the module. -/
  passed : ∀ {decl r}, m.Codes decl → code[q.pc]? = some (.call decl.start) →
    decl.signature.Carries r →
    single (q.state.registers r)
  /-- At a call through a pointer. -/
  pointed : ∀ {pointer}, code[q.pc]? = some (.callPtr pointer) → ∃ sig, m.Site q.pc sig
    ∧ ∀ {r}, sig.Carries r → single (q.state.registers r)
  /-- At the call of a host function, whose arguments were pushed. -/
  handed : ∀ {dst}, code[q.pc]? = some (.callExternal dst) → ∃ decl handle loaded earlier,
    decl ∈ m.functions ∧ decl.linkage = .external handle
      ∧ code.take q.pc = earlier ++ Instr.handsOver handle decl.signature.result.isFloat loaded
      ∧ List.Forall₂
        (fun argument ty => ty.isSingle = true → single (q.state.registers argument.1)) loaded
        decl.signature.params.reverse
  /-- At the return of a function. -/
  returned : ∀ {decl earlier frame r}, m.Codes decl → code[q.pc]? = some .ret →
    code.take q.pc = earlier ++ [.label decl.epilogue, .stackAdjust (.leave frame)] →
    decl.signature.Yields r → single (q.state.registers r)

def singles (m : Module) (vetted : m.Vetted) (unique : m.labels.Nodup)
    (widths : ∀ value ∈ m.values.values, value.ty.isFloat = true → value.ty.size = 4
      ∨ value.ty.size = 8) :
    m.Tracing where
  precise := True
  single := Double.IsSingle
  site := m.Site
  widths {v} _ float := by
    cases found : m.values.get? v with
    | none => simp [types, found, Ty.isFloat] at float
    | some value =>
      simp only [types, found, map_some, getD_some] at float ⊢
      exact widths value (Array.mem_of_getElem? found) float
  rounded {v bits} _ is_constant single := by
    obtain ⟨value, found, is_bits⟩ := bind_eq_some_iff.mp is_constant
    rw [types, found] at single
    obtain ⟨float, size⟩ := Ty.isSingle_iff.mp single
    exact (vetted.values found).rounded is_bits float size
  unique _ := unique
  sites reaches run calls low high := ⟨_, _, _, _, _, _, reaches, run, calls, low, high⟩

theorem Tracing.Follows.precise {t : m.Tracing} {thread : Thread}
    (follows : t.Follows c owner thread) (vetted : m.Vetted) (precise : t.precise)
    (sites : ∀ {index sig}, t.site index sig → m.Site index sig)
    (run : Runs (lowerModule m.functions m.entry) m.context ranges c) :
    m.Precise c.code.toList t.single thread.processor := by
  obtain ⟨q, pending⟩ := thread
  have holds {i : Instr} (fetched : c.code.toList[q.pc]? = some i) (unlabelled : i.label? = none) :=
    (Flow.meets_iff_holds fetched unlabelled).mp follows.meets
  constructor
  case bound =>
    intro decl later items c0 i r v reaches here fetched unlabelled occupied single
    obtain ⟨_, _, sorted⟩ := reaches.sorted t vetted
    have float : r.bank = .float :=
      (sorted.banked.seated occupied).symm.trans (Ty.bank_of_isSingle single)
    have known := sorted.singles float (by simp) occupied ⟨precise, .inl single⟩
    rw [Context.Knows, ← reaches.code run, ← here] at known
    exact holds fetched unlabelled r float known
  case passed =>
    intro decl r codes fetched carries
    obtain ⟨⟨_, sound⟩, _⟩ := follows.within.stands fetched (by simp)
    simp only [Instr.Sound, toFlow_around] at sound
    exact holds fetched rfl r (float_of_carries carries)
      (sound r ⟨precise, decl, codes, .inl ⟨rfl, carries⟩⟩)
  case pointed =>
    intro pointer fetched
    obtain ⟨⟨_, sig, here, sound⟩, _⟩ := follows.within.stands fetched (by simp)
    simp only [toFlow_around, length_take_of_fetched fetched] at here sound
    refine ⟨sig, sites here, fun {r} carries => ?_⟩
    exact holds fetched rfl r (float_of_carries carries) (sound r precise carries)
  case handed =>
    intro dst fetched
    obtain ⟨⟨_, decl, handle, loaded, earlier, listed, external, _, _, split, args⟩, _⟩ :=
      follows.within.stands fetched (by simp)
    simp only [toFlow_around] at listed args
    refine ⟨decl, handle, loaded, earlier, listed, external, split, args.imp ?_⟩
    rintro argument ty ⟨bank, _, known⟩ single
    exact holds fetched rfl _ (bank.trans (Ty.bank_of_isSingle single)) (known precise single)
  case returned =>
    intro decl earlier frame r codes fetched split yields
    exact holds fetched rfl r (float_of_yields yields)
      (knows_of_return precise codes split yields)

theorem nodup_of_assemble {program : Program} {image : Image}
    (assembled : program.assemble = .ok image) : (program.instrs.filterMap Instr.label?).Nodup := by
  have closed := (Assembler.assembles_iff.mp ⟨image, assembled⟩).distinct
  rw [Assembler.withBlobs, List.filterMap_append] at closed
  exact (List.nodup_append.mp closed).1

/-- In proper runs of a finished module, float registers hold singles wherever they should: in the
registers of values of single precision, as arguments of calls and as results. All that is taken for
granted is that the machine and the host give singles where they should. -/
theorem singles_stay_single {options : Options} {file : String} {calls : List ModuleCall}
    {program : Program} {image : Image} (finished : (build options file calls).finish = .ok program)
    (assembled : program.assemble = .ok image)
    (widths : ∀ value ∈ (build options file calls).values.values, value.ty.isFloat = true →
      value.ty.size = 4 ∨ value.ty.size = 8)
    {hw : Hardware} (keeps : hw.Keeps Double.IsSingle) {l : Link} {start thread : Thread}
    (begins : (build options file calls).Begins program.instrs Double.IsSingle start)
    (run : Relation.ReflTransGen
      ((build options file calls).Proceeds hw l program.instrs Double.IsSingle) start
      thread) : (build options file calls).Precise program.instrs Double.IsSingle
        thread.processor := by
  set m := build options file calls
  have vetted : m.Vetted := vetted_build options file calls
  obtain ⟨ranges, c, lowered, instrs, _⟩ := lowered_of_finish finished
  have distinct := nodup_of_assemble assembled
  rw [instrs] at distinct begins run ⊢
  have unique : m.labels.Nodup := labels_lowerModule vetted lowered ▸ distinct
  obtain ⟨owner, follows⟩ := Tracing.follows_of_run (t := m.singles vetted unique widths) vetted
    (visits_lowerModule lowered) trivial id keeps distinct begins run
  exact follows.precise vetted trivial id lowered

/-- The code of an entry that hands a number to a function and returns what it gives back. -/
def relayCode (bits : Word) : List Instr :=
  [.stackAdjust .statics, .call ⟨2⟩, .halt,
    .label ⟨0⟩, .stackAdjust (.enter ⟨0⟩), .label ⟨1⟩, .stackAdjust (.leave ⟨0⟩), .ret,
    .label ⟨2⟩, .stackAdjust (.enter ⟨1⟩), .movImm (.float 0) (.value bits), .call ⟨0⟩,
    .label ⟨3⟩, .stackAdjust (.leave ⟨1⟩), .ret]

theorem relay_runs (hw : Hardware) (l : Link) (single : Word → Prop)
    (site : Nat → Signature → Prop) (bits : Word) (s : MachineState) (sp : Word) : ∃ q : Processor,
      Relation.ReflTransGen (Thread.Moves hw l (relayCode bits) single site)
      ⟨⟨s, sp, 0⟩, []⟩ ⟨q, [2]⟩
        ∧ q.pc = 14 ∧ q.state.registers (.float 0) = bits := by
  have called (q : Processor) (pending : List Nat) {target : LabelId} {pc : Nat}
      (fetched : (relayCode bits)[q.pc]? = some (.call target))
        (found : labelIndex? (relayCode bits) target = some pc) :
      Thread.Moves hw l (relayCode bits) single site ⟨q, pending⟩
        ⟨q.called 0 pc, (q.pc + 1) :: pending⟩ :=
    .call (.label fetched found)
  refine ⟨_, .head (.inner rfl) <| .head (called _ _ rfl rfl) <| .head
    (.inner rfl) <| .head (.inner rfl) <| .head (.inner rfl) <| .head (called _ _ rfl rfl) <| .head
      (.inner rfl) <| .head (.inner rfl) <|
    .head (.inner rfl) <| .head (.inner rfl) <| .head (.ret rfl) <| .head (.inner rfl) <| .head
      (.inner rfl) .refl,
    rfl, rfl⟩

theorem keeps_zero : Hardware.zero.Keeps Double.IsSingle where
  widened _ := ⟨0, (by decide +kernel : (0 : Word) = Double.roundToSingle 0)⟩
  negated _ := ⟨0, (by decide +kernel : (0 : Word) = Double.roundToSingle 0)⟩

theorem exists_image {P : Program → Prop} [DecidablePred P]
    (checked : m.finish.toOption.map (fun program =>
      decide (program.assemble.toOption.isSome = true ∧ P program)) = some true) :
    ∃ program image, m.finish = .ok program ∧ program.assemble = .ok image ∧ P program := by
  obtain ⟨program, finished, made, holds⟩ := exists_program checked
  cases assembled : program.assemble with
  | error fault => simp [assembled, Except.toOption] at made
  | ok image => exact ⟨program, image, finished, assembled, holds⟩

/-- A function that should give a single has no return. -/
def lapseCalls : List ModuleCall :=
  [.declare "f" ⟨[.float 8], .float 4⟩ .internal 1, .declare "main" ⟨[], .float 4⟩ .internal 2,
    .define ⟨0⟩ ["x"] 3 [] true,
    .define ⟨1⟩ [] 4
      [.floatConstant (.float 8) 0x3FB999999999999A, .call ⟨0⟩ [⟨1⟩], .ret (some ⟨2⟩)] true,
    .setEntry ⟨1⟩ 5]

def lapseModule : Module := build { emitLocations := false } "lapse.c" lapseCalls

/-- The entry gets its argument of double precision back and returns it as a single. -/
theorem singles_lapse :
    ∃ program image thread, lapseModule.finish = .ok program ∧ program.assemble = .ok image
      ∧ (∀ value ∈ lapseModule.values.values, value.ty.isFloat = true → value.ty.size = 4
        ∨ value.ty.size = 8)
      ∧ Hardware.zero.Keeps Double.IsSingle
      ∧ (∃ start, lapseModule.Begins program.instrs Double.IsSingle start
        ∧ Relation.ReflTransGen
        (Thread.Moves .zero ⟨program.layout, 0, 0, fun _ => 0, fun _ => 0⟩ program.instrs
          Double.IsSingle lapseModule.Site) start thread)
      ∧ ¬lapseModule.Precise program.instrs Double.IsSingle thread.processor := by
  obtain ⟨program, image, finished, assembled, instrs⟩ :=
    exists_image (m := lapseModule) (P := (·.instrs = relayCode 0x3FB999999999999A))
      (by decide +kernel)
  obtain ⟨q, run, here, content⟩ :=
    relay_runs .zero ⟨program.layout, 0, 0, fun _ => 0, fun _ => 0⟩ Double.IsSingle
    lapseModule.Site 0x3FB999999999999A ⟨fun _ => 0, fun _ => 0⟩ 0
  refine ⟨program, image, ⟨q, [2]⟩, finished, assembled, by decide +kernel, keeps_zero,
    ⟨_, .entry (by decide +kernel), instrs ▸ run⟩, fun precise => ?_⟩
  have codes : lapseModule.Codes lapseModule.functions[1]! := ⟨by decide +kernel, by decide +kernel⟩
  have split : program.instrs.take q.pc = (relayCode 0x3FB999999999999A).take 12
      ++ [.label (lapseModule.functions[1]!).epilogue, .stackAdjust (.leave ⟨1⟩)] := by
    rw [instrs, here]
    decide +kernel
  have yields : (lapseModule.functions[1]!).signature.Yields (.float 0) :=
    ⟨by decide +kernel, by decide +kernel⟩
  have single := precise.returned codes (by rw [instrs, here]; rfl) split yields
  rw [content] at single
  exact absurd single.coarse (by decide)

def relayCalls : List ModuleCall :=
  [.declare "f" ⟨[.float 4], .float 4⟩ .internal 1, .declare "main" ⟨[], .float 4⟩ .internal 2,
    .define ⟨0⟩ ["x"] 3 [.ret (some ⟨0⟩)] true,
    .define ⟨1⟩ [] 4
      [.floatConstant (.float 4) 0x3FB999999999999A, .call ⟨0⟩ [⟨1⟩], .ret (some ⟨2⟩)] true,
    .setEntry ⟨1⟩ 5]

/-- The entry hands a single over, gets it back and returns it. -/
theorem singles_stay_single_relay : ∃ program thread start,
    (build { emitLocations := false } "relay.c" relayCalls).finish = .ok program
      ∧ Relation.ReflTransGen
        ((build { emitLocations := false } "relay.c" relayCalls).Proceeds .zero
        ⟨program.layout, 0, 0, fun _ => 0, fun _ => 0⟩ program.instrs Double.IsSingle) start thread
      ∧ program.instrs[thread.processor.pc]? = some .ret
      ∧ thread.processor.state.registers (.float 0) = 0x3FB99999A0000000
      ∧ (build { emitLocations := false } "relay.c" relayCalls).Precise
        program.instrs Double.IsSingle
        thread.processor := by
  set m := build { emitLocations := false } "relay.c" relayCalls with is_module
  obtain ⟨program, image, finished, assembled, instrs⟩ :=
    exists_image (m := m) (P := (·.instrs = relayCode 0x3FB99999A0000000)) (by decide +kernel)
  obtain ⟨q, run, here, content⟩ :=
    relay_runs .zero ⟨program.layout, 0, 0, fun _ => 0, fun _ => 0⟩ Double.IsSingle
    m.Site 0x3FB99999A0000000 ⟨fun _ => 0, fun _ => 0⟩ 0
  rw [← instrs] at run
  -- No step is left to the program: nothing is called through a pointer, and both bodies return.
  have proper (q q' : Processor) : m.Proper program.instrs q q' := by
    have direct : ∀ i ∈ program.instrs, ∀ r, i ≠ .callPtr r := by
      rw [instrs]
      simp [relayCode]
    have closed : ∀ decl ∈ m.functions.toList, decl.endsOpen = false := by decide +kernel
    constructor
    · intro r fetched
      exact (direct _ (List.mem_of_getElem? fetched) r rfl).elim
    · intro decl codes is_open
      cases is_open.symm.trans (closed decl (Array.mem_toList_iff.mpr codes.1))
  have proceeds :=
    Relation.ReflTransGen.mono (p := m.Proceeds .zero _ program.instrs Double.IsSingle)
    (fun _ _ moves => ⟨moves, proper _ _⟩) _ _ run
  refine ⟨program, ⟨q, [2]⟩, _, finished, proceeds, by rw [instrs, here]; rfl, content, ?_⟩
  exact singles_stay_single finished assembled (by decide +kernel) keeps_zero
    (.entry (by decide +kernel)) proceeds

end Module

end RegisterBackend
