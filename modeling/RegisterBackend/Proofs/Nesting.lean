import RegisterBackend.Proofs.Consistency
import RegisterBackend.Proofs.Locking

/-!
Eviction ends. Making room may ask for another register, but only while the register that is being
emptied is locked; so requests nest no deeper than there are unlocked registers, and the recursion
needs no bound.
-/
namespace RegisterBackend

variable {α β : Type} {bank : Bank} {c inner : Context} {r : Register}

namespace Gen

/-- Run from `c`, the block asks for registers only in states in which `r` is locked on top of what
was locked before: supplies that do the same there serve it alike. -/
def AsksLocking (r : Register) (block : Gen Register → Gen α) (c : Context) : Prop :=
  ∀ supply supply' : Gen Register, (∀ inner : Context,
      inner.registers.locked = c.registers.locked.put r true →
      outcome supply inner = outcome supply' inner) →
    outcome (block supply) c = outcome (block supply') c

namespace AsksLocking

theorem free (x : Gen α) : AsksLocking r (fun _ => x) c := fun _ _ _ => rfl

theorem andThen {block : Gen Register → Gen α} (first : AsksLocking r block c) (rest : α → Gen β) :
    AsksLocking r (fun supply => block supply >>= rest) c := by
  intro supply supply' agree
  rw [outcome_bind, outcome_bind, first supply supply' agree]

theorem after {x : Gen α} {rest : Gen Register → α → Gen β} (kept : KeepsLocks x)
    (asks : ∀ a c1, AsksLocking r (rest · a) c1) :
    AsksLocking r (fun supply => x >>= rest supply) c := by
  intro supply supply' agree
  have same := kept c
  rw [outcome_bind, outcome_bind]
  rcases ran : outcome x c with ⟨fault | a, c1⟩
  · rfl
  · rw [ran] at same
    exact asks a c1 supply supply' fun inner locks => agree inner (same ▸ locks)

theorem holding (rest : Register → Gen α) :
    AsksLocking r (fun supply => holding r (supply >>= rest)) c := by
  intro supply supply' agree
  have same : outcome (supply >>= rest) (c.withLock r true) = outcome (supply' >>= rest)
      (c.withLock r true) := by
    rw [outcome_bind, outcome_bind, agree _ rfl]
  exact congrArg (fun ended => (ended.1, ended.2.withLock r (c.registers.isLocked r))) same

theorem storeVia (target : Position) (ty : Ty) : AsksLocking r (storeVia · r target ty) c := by
  cases target with
  | register dst => exact free _
  | stack slot => exact free _
  | static offset => exact holding _
  | constant id => exact holding _

theorem vacateVia (r : Register) (c : Context) : AsksLocking r (vacateVia · r) c := by
  refine after (lockKeeping.holds_occupantOf r) fun occupant c1 => ?_
  cases occupant with
  | none => exact free _
  | some v =>
    refine after (.valueOf v) fun value c2 => ?_
    by_cases idle : (!value.needsStore) = true
    · simp only [idle, ↓reduceIte]
      exact free _
    by_cases named : value.isNamed = true
    · simp only [idle, named, ↓reduceIte]
      refine andThen (after (lockKeeping.holds_homeOf v) fun home c3 => ?_) _
      exact after (.valueOf v) fun value' c4 => andThen (storeVia home value'.ty) _
    · simp only [idle, named]
      exact free _

end AsksLocking

end Gen

/-- What was locked is still locked, and more registers are. -/
def Context.Tightens (c inner : Context) : Prop :=
  (∀ r, c.registers.isLocked r = true → inner.registers.isLocked r = true)
    ∧ c.registers.allLocked.length < inner.registers.allLocked.length

namespace Context

theorem tightens_of_evict (chosen : c.choose bank = .ok (.evict r))
    (locks : inner.registers.locked = c.registers.locked.put r true) : c.Tightens inner := by
  obtain ⟨v, candidate⟩ := choose_cases chosen
  obtain ⟨_, occupied, unlocked⟩ := mem_candidates.mp candidate
  have range := RegisterFile.inRange_of_occupant? occupied
  have same (q : Register) :
      inner.registers.isLocked q = (c.registers.setLocked r true).isLocked q := by
    rw [RegisterFile.isLocked, locks]
    rfl
  have still (q : Register) (is_locked : c.registers.isLocked q = true) :
      inner.registers.isLocked q = true := by
    rw [same, RegisterFile.isLocked_lock r is_locked]
  have fewer : c.registers.allLocked = inner.registers.allLocked.filter c.registers.isLocked := by
    rw [RegisterFile.allLocked, RegisterFile.allLocked, List.filter_filter]
    refine List.filter_congr fun q _ => ?_
    cases is_locked : c.registers.isLocked q with
    | false => rfl
    | true => rw [still q is_locked, Bool.and_self]
  refine ⟨still, ?_⟩
  rw [fewer, List.length_filter_lt_length_iff_exists]
  have locked :
      inner.registers.isLocked r = true := by rw [same, RegisterFile.isLocked_lock_self _ range]
  refine ⟨r, List.mem_filter.mpr ⟨?_, locked⟩, by simp [unlocked]⟩
  cases bank : r.bank with
  | int => exact List.mem_append_left _ (RegisterFile.mem_registers.mpr ⟨bank, range⟩)
  | float => exact List.mem_append_right _ (RegisterFile.mem_registers.mpr ⟨bank, range⟩)

theorem Tightens.unlockedCount_lt (tightens : c.Tightens inner) :
    inner.registers.unlockedCount < c.registers.unlockedCount := by
  have split (f : RegisterFile) : 2 * Bank.size = f.allLocked.length + f.unlockedCount :=
    List.length_eq_length_filter_add (l := Bank.registers .int ++ Bank.registers .float) f.isLocked
  have outside := split c.registers
  have inside := split inner.registers
  have more := tightens.2
  omega

theorem tightens_wellFounded : WellFounded fun inner c : Context => c.Tightens inner :=
  Subrelation.wf (fun tightens => tightens.unlockedCount_lt)
    (measure fun c : Context => c.registers.unlockedCount).wf

end Context

namespace Gen

theorem obtainBy_congr {supply supply' : Nat → Gen Register} (agree : ∀ inner, c.Tightens inner →
      outcome (supply c.registers.unlockedCount) inner = outcome
      (supply' c.registers.unlockedCount) inner) :
    outcome (obtainBy supply bank c) c = outcome (obtainBy supply' bank c) c := by
  unfold obtainBy
  split
  · rfl
  · rfl
  · rfl
  · next r chosen =>
    refine AsksLocking.andThen (AsksLocking.vacateVia r c) _ _ _ fun inner locks => ?_
    exact agree inner (Context.tightens_of_evict chosen locks)

theorem outcome_obtainRegister (bank : Bank) (c : Context) :
    outcome (obtainRegister bank) c = outcome
    (obtainBy (fun _ => obtainRegister .int) bank c) c := by
  rw [obtainRegister_eq, outcome_get]
  refine obtainBy_congr fun inner tightens => ?_
  change outcome
    (if inner.registers.unlockedCount < c.registers.unlockedCount then obtainRegister .int
    else inconsistent (.everyRegisterLocked .int)) inner = _
  rw [if_pos tightens.unlockedCount_lt]

/-- Registers are obtained with requests that nest at most `depth` deep; a request that is nested
deeper goes to `last`. -/
def obtainWithin (last : Gen Register) : Nat → Bank → Gen Register
  | 0, _ => last
  | depth + 1, bank => get >>= obtainBy (fun _ => obtainWithin last depth .int) bank

theorem outcome_obtainWithin {last : Gen Register} {depth : Nat}
    (few : c.registers.unlockedCount < depth) :
    outcome (obtainWithin last depth bank) c = outcome (obtainRegister bank) c := by
  induction depth generalizing bank c with
  | zero => exact absurd few (Nat.not_lt_zero _)
  | succ depth ih =>
    rw [obtainWithin, outcome_get, outcome_obtainRegister]
    refine obtainBy_congr fun inner tightens => ih ?_
    exact Nat.lt_of_lt_of_le tightens.unlockedCount_lt (Nat.le_of_lt_succ few)

/-- Eviction ends. Whatever supplies the registers that it asks for, it asks only with strictly more
registers locked; so requests nest at most one deeper than registers are unlocked in the first,
whatever would be done beyond that, and the recursion, in which no bound occurs, has exactly one
solution. -/
theorem eviction_ends : (∀ bank c (supply supply' : Gen Register),
      (∀ inner, c.Tightens inner → outcome supply inner = outcome supply' inner) →
      outcome (obtainBy (fun _ => supply) bank c) c = outcome
      (obtainBy (fun _ => supply') bank c) c)
    ∧ (∀ last bank c, outcome (obtainWithin last (c.registers.unlockedCount + 1) bank) c
      = outcome (obtainRegister bank) c)
    ∧ (WellFounded fun inner c : Context => c.Tightens inner)
    ∧ (∀ bank, obtainRegister bank = get >>= obtainBy (fun _ => obtainRegister .int) bank)
    ∧ ∀ solution : Bank → Gen Register,
      (∀ bank, solution bank = get >>= obtainBy (fun _ => solution .int) bank) →
      solution = obtainRegister := by
  refine ⟨fun bank c supply supply' agree => obtainBy_congr agree,
    fun last bank c => outcome_obtainWithin (Nat.lt_succ_self _), Context.tightens_wellFounded,
    fun bank => funext fun c => outcome_obtainRegister bank c, fun solution solves => ?_⟩
  suffices same : ∀ c bank, outcome (solution bank) c = outcome (obtainRegister bank) c from
    funext fun bank => funext fun c => same c bank
  intro c
  induction c using Context.tightens_wellFounded.induction with
  | _ c ih =>
    intro bank
    rw [solves, outcome_get, outcome_obtainRegister]
    exact obtainBy_congr fun inner tightens => ih inner tightens .int

/-- The bound is sharp: the one register that is not locked holds a static that needs a pointer. -/
example : ∃ c last, c.registers.unlockedCount = 1
    ∧ (outcome (obtainWithin last c.registers.unlockedCount .int) c).1 ≠ (outcome
      (obtainRegister .int) c).1 := by
  let c : Context := { staticInRegister with
    registers := { staticInRegister.registers with locked := ⟨~~~1, ~~~0⟩ } }
  exact ⟨c, throw (.noSuchRegister (.int 0)), by decide +kernel, by decide +kernel⟩

end Gen
end RegisterBackend
