import RegisterBackend.Proofs.Regime

/-!
Two runs side by side. A `Correspondence` relates contexts that may differ in what is only written:
remarks, switches, counters. Every rule of lowering is uniform: it leaves corresponding contexts.
-/
namespace RegisterBackend

variable {f : Context → Context}

/-- The results of two runs agree and are no complaints about the start of a function. -/
structure Agree {α : Type} (rel : Context → Context → Prop)
    (first second : Except Fault α × Context) : Prop where
  result : second.1 = first.1
  context : rel first.2 second.2
  mild : ∀ {fault}, first.1 = .error fault → fault.atStart = false

structure Correspondence where
  rel : Context → Context → Prop
  shares : ∀ {c d}, rel c d → c.Shares d
  change : ∀ {c d}, rel c d → ∀ k, rel (c.withCore k) (d.withCore k)
  emit : ∀ {c d}, rel c d → ∀ i, rel (c.pushed i) (d.pushed i)
  comment : ∀ {c d}, rel c d → ∀ text,
    Agree rel (Gen.outcome (Gen.comment text) c) (Gen.outcome (Gen.comment text) d)
  mark : ∀ {c d}, rel c d → ∀ {v value}, c.values.get? v = some value →
    Agree rel (Gen.outcome (Gen.markLocation v) c) (Gen.outcome (Gen.markLocation v) d)
  register : ∀ {c d}, rel c d → rel { c with statistics := c.statistics.addRegister }
    { d with statistics := d.statistics.addRegister }
  spill : ∀ {c d}, rel c d → rel { c with statistics := c.statistics.addSpill }
    { d with statistics := d.statistics.addSpill }
  call : ∀ {c d}, rel c d → rel { c with statistics := c.statistics.addCall }
    { d with statistics := d.statistics.addCall }
  operation : ∀ {c d}, rel c d → ∀ kind, rel { c with statistics := c.statistics.addOperation kind }
    { d with statistics := d.statistics.addOperation kind }

namespace Correspondence
open Gen

section
variable {α β ι : Type} {K : Correspondence} {c d : Context} {x : Gen α}

def Agrees (K : Correspondence) (c d : Context) (x : Gen α) : Prop :=
  Agree K.rel (outcome x c) (outcome x d)

def Uniform (K : Correspondence) (x : Gen α) : Prop := ∀ ⦃c d⦄, K.rel c d → K.Agrees c d x

theorem agrees_bind {f : α → Gen β} (first : K.Agrees c d x)
    (rest : ∀ {a c1 d1}, Runs x c a c1 → Runs x d a d1 → K.rel c1 d1 → K.Agrees c1 d1 (f a)) :
    K.Agrees c d (x >>= f) := by
  obtain ⟨result, context, mild⟩ := first
  rcases left : outcome x c with ⟨_ | a, c1⟩
  · rcases right : outcome x d with ⟨_ | _, d1⟩
    · simp only [left, right, Except.error.injEq] at result context mild
      subst result
      refine ⟨?_, ?_, fun {fault} stopped => mild ?_⟩
      · simp only [outcome_bind, left, right]
      · simpa only [outcome_bind, left, right] using context
      · simpa only [outcome_bind, left, Except.error.injEq] using stopped
    · simp [left, right] at result
  · rcases right : outcome x d with ⟨_ | _, d1⟩
    · simp [left, right] at result
    · simp only [left, right, Except.ok.injEq] at result context
      subst result
      have next := rest left right context
      simpa only [Agrees, outcome_bind, left, right] using next

theorem uniform_bind {f : α → Gen β} (first : K.Uniform x) (rest : ∀ a, K.Uniform (f a)) :
    K.Uniform (x >>= f) :=
  fun _ _ related => agrees_bind (first related) fun _ _ related => rest _ related

theorem uniform_pure (a : α) : K.Uniform (pure a) :=
  fun _ _ related => ⟨rfl, related, by rintro _ ⟨⟩⟩

theorem uniform_throw {fault : Fault} (mild : fault.atStart = false) :
    K.Uniform (throw fault : Gen α) :=
  fun _ _ related => ⟨rfl, related, by rintro _ ⟨⟩; exact mild⟩

theorem uniform_ite {p : Prop} [Decidable p] {y : Gen α} (yes : K.Uniform x) (no : K.Uniform y) :
    K.Uniform (if p then x else y) := by
  split
  · exact yes
  · exact no

theorem uniform_get {f : Context → Gen β} (agrees : ∀ {c d : Context}, c.Shares d → f d = f c)
    (rest : ∀ c, K.Uniform (f c)) : K.Uniform (get >>= f) := by
  intro c d related
  change Agree K.rel (outcome (f c) c) (outcome (f d) d)
  rw [agrees (K.shares related)]
  exact rest c related

theorem changed (related : K.rel c d) (g : Context.Core → Context.Core)
    (in_core : ∀ c : Context, f c = c.withCore (g c.core)) : K.rel (f c) (f d) := by
  rw [in_core, in_core, (K.shares related).core_eq]
  exact K.change related _

theorem uniform_modify (g : Context.Core → Context.Core)
    (in_core : ∀ c : Context, f c = c.withCore (g c.core)) : K.Uniform (modify f : Gen Unit) :=
  fun _ _ related => ⟨rfl, changed related g in_core, by rintro _ ⟨⟩⟩

theorem uniform_holding {r : Register} {block : Gen α} (inner : K.Uniform block) :
    K.Uniform (holding r block) := by
  intro c d related
  have locked : K.rel (c.withLock r true) (d.withLock r true) :=
    changed related (fun k => { k with registers := k.registers.setLocked r true }) fun _ => rfl
  obtain ⟨result, context, mild⟩ := inner locked
  have unfolded (c : Context) : outcome (holding r block) c
      = ((outcome block (c.withLock r true)).1,
        (outcome block (c.withLock r true)).2.withLock r (c.registers.isLocked r)) := rfl
  rw [Agrees, unfolded, unfolded, (K.shares related).registers]
  exact ⟨result, changed context
    (fun k => { k with registers := k.registers.setLocked r (c.registers.isLocked r) })
      fun _ => rfl, mild⟩

theorem uniform_emit (i : Instr) : K.Uniform (Gen.emit i) :=
  fun _ _ related => ⟨rfl, K.emit related i, by rintro _ ⟨⟩⟩

theorem uniform_inconsistent {cause : Inconsistency}
    (mild : (Fault.failed (.inconsistent cause)).atStart = false) :
    K.Uniform (inconsistent cause : Gen α) := uniform_throw mild

def regime (K : Correspondence) : Regime where
  holds := K.Uniform
  sees _ _ _ := True
  writes _ := True
  stops fault := fault.atStart = false
  writes_plain _ := trivial
  stops_routine := Fault.atStart_of_isRoutine
  stops_inconsistent mild := mild
  holds_pure := uniform_pure
  holds_throw := uniform_throw
  holds_bind := uniform_bind
  holds_holding := uniform_holding
  holds_get same rest := uniform_get same fun c => rest c fun _ _ _ => trivial
  holds_modify g in_core _ _ := uniform_modify g in_core
  holds_exchange {α f} same rest c d related := by
    change Agree K.rel (outcome (f c) c) (outcome (f d) d)
    rw [same (K.shares related)]
    rcases rest c with step | ⟨registers, a, _, exchange⟩
    · exact step related
    · rw [exchange]
      exact ⟨rfl, changed related (fun k => { k with registers }) fun _ => rfl, by rintro _ ⟨⟩⟩
  holds_emit _ := uniform_emit _
  holds_comment text _ _ related := K.comment related text
  holds_mark step known _ _ related := agrees_bind (step related) fun run _ related => by
    obtain ⟨value, found⟩ := known run
    exact K.mark related found
  holds_addRegister _ _ related := ⟨rfl, K.register related, by rintro _ ⟨⟩⟩
  holds_addSpill _ _ related := ⟨rfl, K.spill related, by rintro _ ⟨⟩⟩
  holds_addCall _ _ related := ⟨rfl, K.call related, by rintro _ ⟨⟩⟩
  holds_addOperation kind _ _ related := ⟨rfl, K.operation related kind, by rintro _ ⟨⟩⟩

theorem uniform_retireRegisters : K.Uniform retireRegisters := K.regime.holds_retireRegisters

theorem uniform_lowerPrologue (decl : Declaration) (frame : FrameId) :
    K.Uniform (lowerPrologue decl frame) :=
  uniform_bind (uniform_emit _) fun _ => uniform_bind (K.regime.holds_comment _) fun _ =>
    uniform_bind (uniform_emit _) fun _ => K.regime.holds_bindParameters _

theorem uniform_lowerEpilogue (decl : Declaration) (frame : FrameId) :
    K.Uniform (lowerEpilogue decl frame) :=
  uniform_bind (uniform_emit _) fun _ => uniform_bind (uniform_emit _) fun _ => uniform_emit _

theorem uniform_lowerEntry (functions : Array Declaration) (entry : Option FunctionId) :
    K.Uniform (lowerEntry functions entry) := by
  unfold lowerEntry
  split
  · exact uniform_pure _
  · split
    · exact uniform_inconsistent rfl
    · exact uniform_bind (uniform_emit _) fun _ => uniform_bind (uniform_emit _)
        fun _ => uniform_emit _

theorem allows (functions : Array Declaration) (decl : Declaration) (isLast : Bool)
    (operation : Operation) : K.regime.course.Allows functions decl isLast operation :=
  K.regime.course.allows_of_free (fun _ => rfl) (fun _ => trivial) operation

theorem uniform_lowerUnchecked (functions : Array Declaration)
    (decl : Declaration) (item : BodyItem) (isLast : Bool) :
    K.Uniform (lowerUnchecked functions decl item isLast) :=
  K.regime.holds_lowerUnchecked (allows _ _ _ _)

end

end Correspondence

end RegisterBackend
