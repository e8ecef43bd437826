import RegisterBackend.Proofs.Regime

/-!
Locks are restored. Whatever is done by the operations of the allocator, by transfers and by the
rules of lowering, and however it ends, the same registers are locked before and after.
-/
namespace RegisterBackend

namespace Gen

/-- What code generation is composed of. Between the operations the state may be looked at, and any
of them may run under a guard that locks a register, one that is locked already among them. -/
inductive Operates : {α : Type} → Gen α → Prop
  | pure {α : Type} (a : α) : Operates (pure a : Gen α)
  | throw {α : Type} (fault : Fault) : Operates (throw fault : Gen α)
  | get : Operates (get : Gen Context)
  | bind {α β : Type} {x : Gen α} {f : α → Gen β} (first : Operates x)
      (rest : ∀ a, Operates (f a)) : Operates (x >>= f)
  | holding {α : Type} (r : Register) {block : Gen α} (inner : Operates block) :
      Operates (holding r block)
  | emit (i : Instr) : Operates (emit i)
  | comment (text : String) : Operates (comment text)
  | setLocation (loc : Location) : Operates (setLocation loc)
  | enterFrame (frame : FrameId) : Operates (enterFrame frame)
  | leaveFrame : Operates leaveFrame
  | allocateSlot (size : Nat) : Operates (allocateSlot size)
  | markLocation (v : ValueId) : Operates (markLocation v)
  | bindRegister (r : Register) (v : ValueId) : Operates (bindRegister r v)
  | unbindRegister (r : Register) : Operates (unbindRegister r)
  | checkConsistency : Operates checkConsistency
  | obtainRegister (bank : Bank) : Operates (obtainRegister bank)
  | vacate (r : Register) : Operates (vacate r)
  | displace (r : Register) : Operates (displace r)
  | moveOccupant (source target : Register) : Operates (moveOccupant source target)
  | homeOf (v : ValueId) : Operates (homeOf v)
  | spill (v : ValueId) (r : Register) : Operates (spill v r)
  | flush (v : ValueId) : Operates (flush v)
  | flushAll : Operates flushAll
  | releaseEscaped : Operates releaseEscaped
  | vacateAll : Operates vacateAll
  | dropAll (strict : Bool) : Operates (dropAll strict)
  | canonicalize (r : Register) (ty : Ty) : Operates (canonicalize r ty)
  | narrowFloat (r : Register) (ty : Ty) : Operates (narrowFloat r ty)
  | loadAddress (dst : Register) (position : Position) : Operates (loadAddress dst position)
  | load (dst : Register) (source : Position) (ty : Ty) : Operates (load dst source ty)
  | store (src : Register) (target : Position) (ty : Ty) : Operates (store src target ty)
  | loadConstant (dst : Register) (bits : Word) : Operates (loadConstant dst bits)
  | loadValue (dst : Register) (v : ValueId) : Operates (loadValue dst v)
  | copyMemory (target source : Position) (ty : Ty) : Operates (copyMemory target source ty)
  | useInRegister (v : ValueId) : Operates (useInRegister v)
  | copyToRegister (v : ValueId) : Operates (copyToRegister v)
  | takeRegister (v : ValueId) : Operates (takeRegister v)
  | settle (v : ValueId) : Operates (settle v)
  | copyTo (v : ValueId) (target : Position) (ty : Ty) : Operates (copyTo v target ty)
  | moveTo (v : ValueId) (target : Position) (ty : Ty) : Operates (moveTo v target ty)
  | copyConverted (v : ValueId) (target : Position) (ty : Ty) : Operates (copyConverted v target ty)
  | lowerOperation (functions : Array Declaration) (decl : Declaration) (isLast : Bool)
      (operation : Operation) : Operates (lowerOperation functions decl isLast operation)
  | lowerFunction (functions : Array Declaration) (decl : Declaration) :
      Operates (lowerFunction functions decl)
  | lowerModule (functions : Array Declaration) (entry : Option FunctionId) :
      Operates (lowerModule functions entry)

def KeepsLocks {α : Type} (x : Gen α) : Prop :=
  ∀ c : Context, (outcome x c).2.registers.locked = c.registers.locked

namespace KeepsLocks
variable {α β : Type}

theorem bind {x : Gen α} {f : α → Gen β} (first : KeepsLocks x) (rest : ∀ a, KeepsLocks (f a)) :
    KeepsLocks (x >>= f) := by
  intro c
  have kept := first c
  rw [outcome_bind]
  rcases ran : outcome x c with ⟨fault | a, c1⟩
  · rwa [ran] at kept
  · rw [ran] at kept
    exact (rest a c1).trans kept

theorem get {f : Context → Gen α} (rest : ∀ c, KeepsLocks (f c)) : KeepsLocks (get >>= f) :=
  fun c => rest c c

theorem modify {f : Context → Context}
    (same : ∀ c : Context, (f c).registers.locked = c.registers.locked) :
    KeepsLocks (modify f : Gen Unit) := same

theorem pure (a : α) : KeepsLocks (pure a : Gen α) := fun _ => rfl

theorem throw (fault : Fault) : KeepsLocks (throw fault : Gen α) := fun _ => rfl

theorem ite {p : Prop} [Decidable p] {x y : Gen α} (yes : KeepsLocks x) (no : KeepsLocks y) :
    KeepsLocks (if p then x else y) := by
  split
  · exact yes
  · exact no

/-- Closing a guard puts back what it found. -/
theorem holding {r : Register} {block : Gen α} (inner : KeepsLocks block) :
    KeepsLocks (holding r block) := by
  intro c
  have kept : (block (c.withLock r true)).2.registers.locked = c.registers.locked.put r true :=
    inner _
  change (block (c.withLock r true)).2.registers.locked.put r (c.registers.locked.contains r) = _
  rw [kept, RegisterSet.put_put_contains]

theorem valueOf (v : ValueId) : KeepsLocks (valueOf v) := by
  refine get fun c => ?_
  cases c.values.get? v with
  | none => exact throw _
  | some value => exact pure _

theorem markLocation (v : ValueId) : KeepsLocks (markLocation v) := by
  refine get fun _ => ite (bind (valueOf v) fun value => ?_) (pure _)
  split
  · exact modify fun _ => rfl
  · exact pure _

end KeepsLocks

def lockKeeping : Regime where
  holds := KeepsLocks
  sees _ _ _ := True
  writes _ := True
  stops _ := True
  writes_plain _ := trivial
  stops_routine _ := trivial
  stops_inconsistent _ := trivial
  holds_pure := .pure
  holds_throw _ := .throw _
  holds_bind := .bind
  holds_holding := .holding
  holds_get _ rest := .get fun c => rest c fun _ _ _ => trivial
  holds_modify _ _ locked _ := .modify locked
  holds_exchange {_ f} _ rest c := by
    change (outcome (f c) c).2.registers.locked = _
    rcases rest c with step | ⟨registers, a, locked, exchange⟩
    · exact step c
    · rw [exchange]
      exact locked
  holds_emit _ := .modify fun _ => rfl
  holds_comment _ := .get fun _ => .ite (.modify fun _ => rfl) (.pure _)
  holds_mark step _ := .bind step fun _ => .markLocation _
  holds_addRegister := .modify fun _ => rfl
  holds_addSpill := .modify fun _ => rfl
  holds_addCall := .modify fun _ => rfl
  holds_addOperation _ := .modify fun _ => rfl

theorem KeepsLocks.checkConsistency : KeepsLocks checkConsistency := by
  refine .get fun c => ?_
  cases c.check with
  | ok _ => exact .pure _
  | error fault => exact .throw fault

def lockScheme : Scheme :=
  lockKeeping.scheme (fun _ => trivial) (fun _ _ => trivial)
    (.get fun _ => .ite .checkConsistency (.pure _)) (.get fun _ => .pure _) fun _ _ =>
      .modify fun _ => rfl

theorem keepsLocks_lowerUnchecked (functions : Array Declaration) (decl : Declaration)
    (item : BodyItem) (isLast : Bool) : KeepsLocks (lowerUnchecked functions decl item isLast) :=
  lockKeeping.holds_lowerUnchecked (Course.allows_of_free _ (fun _ => trivial) (fun _ => trivial) _)

/-- No operation changes which registers are locked, whether it succeeds or fails, and closing a
guard gives back exactly the locks that its opening found. -/
theorem Operates.locks_restored {α : Type} {x : Gen α} (operates : Operates x) (c : Context) :
    (outcome x c).2.registers.locked = c.registers.locked := by
  let R := lockKeeping
  suffices kept : R.holds x from kept c
  induction operates with
  | pure a => exact R.holds_pure a
  | throw fault => exact R.holds_throw trivial
  | get => exact fun _ => rfl
  | bind _ _ first rest => exact R.holds_bind first rest
  | holding r _ inner => exact R.holds_holding inner
  | emit i => exact R.holds_emit trivial
  | comment text => exact R.holds_comment text
  | setLocation loc => exact R.holds_setLocation loc
  | enterFrame frame => exact .modify fun _ => rfl
  | leaveFrame => exact .modify fun _ => rfl
  | allocateSlot size => exact R.holds_allocateSlot size
  | markLocation v => exact .markLocation v
  | bindRegister r v => exact R.holds_bindRegister r v
  | unbindRegister r => exact R.holds_unbindRegister r
  | checkConsistency => exact .checkConsistency
  | obtainRegister bank => exact R.holds_obtainRegister bank
  | vacate r => exact R.holds_vacate r
  | displace r => exact R.holds_displace r
  | moveOccupant source target => exact R.holds_moveOccupant source target
  | homeOf v => exact R.holds_homeOf v
  | spill v r => exact R.holds_spill v r
  | flush v => exact R.holds_flush v
  | flushAll => exact R.holds_flushAll
  | releaseEscaped => exact R.holds_releaseEscaped
  | vacateAll => exact R.holds_vacateAll
  | dropAll strict => exact R.holds_dropAll strict
  | canonicalize r ty => exact R.course.goes_canonicalize (m := .parting) (c := c) r ty
  | narrowFloat r ty => exact R.course.goes_narrowFloat (m := .parting) (c := c) r ty
  | loadAddress dst position => exact R.holds_loadAddress dst position
  | load dst source ty => exact R.course.goes_load (m := .parting) (c := c) fun _ => trivial
  | store src target ty => exact R.holds_store src target ty
  | loadConstant dst bits => exact R.holds_loadConstant dst bits
  | loadValue dst v => exact R.course.goes_loadValue (m := .parting) (c := c) dst v
  | copyMemory target source ty =>
    exact R.course.goes_copyMemory (m := .parting) (c := c) fun _ => trivial
  | useInRegister v => exact R.course.goes_useInRegister (m := .parting) (c := c) (by decide) v
  | copyToRegister v => exact R.course.goes_copyToRegister (m := .parting) (c := c) v
  | takeRegister v => exact R.course.goes_takeRegister (m := .parting) (c := c) v
  | settle v => exact R.course.goes_settle (m := .parting) (c := c) v
  | copyTo v target ty => exact R.course.goes_copyTo (m := .parting) (c := c) v target ty
  | moveTo v target ty =>
    exact R.holds_bind (R.course.goes_copyTo (m := .parting) (c := c) v target ty) fun _ =>
      R.holds_discard (R.holds_consume v)
  | copyConverted v target ty =>
    have fits := R.course.fits_of_refuses (fun _ => trivial) v ty
    exact R.course.goes_copyConverted (m := .parting) (c := c) fits target
  | lowerOperation functions decl isLast operation =>
    exact R.course.goes_lowerOperation (c := c)
      (R.course.allows_of_free (fun _ => trivial) (fun _ => trivial) _)
      (fun _ => trivial) fun _ => trivial
  | lowerFunction functions decl =>
    exact (lockScheme.holds_lowerFunction fun _ _ _ =>
      and_self_iff.mpr (keepsLocks_lowerUnchecked _ _ _ _)).1
  | lowerModule functions entry =>
    exact (lockScheme.holds_lowerModule entry fun _ _ _ _ _ =>
      and_self_iff.mpr (keepsLocks_lowerUnchecked _ _ _ _)).1

/-- A register is locked twice, and what runs under the guards fails. -/
theorem locks_restored_twice :
    let ended := outcome (holding (.int 3) (holding (.int 3) (unbindRegister (.int 4)))) {}
    ended.1 = .error (.failed (.inconsistent (.releasedEmpty (.int 4))))
      ∧ ended.2.registers.locked = .empty :=
  ⟨rfl, Operates.locks_restored (.holding _ (.holding _ (.unbindRegister _))) {}⟩

end Gen

end RegisterBackend
