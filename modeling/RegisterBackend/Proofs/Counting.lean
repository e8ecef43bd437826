import RegisterBackend.Proofs.Consumption

/-!
The counts of uses are exact: what is counted at any time are the operands of the operations still
to come, and those of bodies that were opened but never completed.
-/
namespace RegisterBackend

open ValueStore List Value

variable {c : Context} {decl : Declaration} {k : Manner} {left : List ValueId} {m : Module}
  {decls : List Declaration} {function : FunctionId} {isLast : Bool} {item : BodyItem}
  {items rest : List BodyItem} {loc : Location} {operation : Operation} {v : ValueId}
  {value value' : Value}

namespace Operation

def uses (operations : List Operation) : List ValueId := operations.flatMap operands

theorem uses_append (first later : List Operation) :
    uses (first ++ later) = uses first ++ uses later :=
  flatMap_append

theorem uses_singleton (operation : Operation) : uses [operation] = operation.operands :=
  append_nil _

end Operation

namespace ValueStore
variable {s : ValueStore}

theorem references_modify (v w : ValueId) {f : Value → Value}
    (kept : ∀ value, (f value).references = value.references) :
    (s.modify v f).references w = s.references w := by
  rw [references, references, get?_modify]
  split
  · next same =>
    subst same
    cases s.get? w <;> simp [kept]
  · rfl

theorem references_noteUses {vs : List ValueId} (known : ∀ v ∈ vs, (s.get? v).isSome = true)
    (w : ValueId) : (vs.foldl noteUse s).references w = s.references w + vs.count w := by
  rw [references, references, get?_noteUses]
  cases found : s.get? w with
  | some value => rfl
  | none =>
    have unused : w ∉ vs := fun member => by simpa [found] using known w member
    simp [count_eq_zero.mpr unused]

theorem references_add (unused : value.references = 0) (w : ValueId) :
    (s.add value).2.references w = s.references w := by
  rw [references, references, get?_add]
  split
  · next same => simp [same, get?_next, unused]
  · rfl

end ValueStore

namespace Module

/-- What is counted for the values of a module are the operands of its operations, those of a body
under construction with the operations `pending`, and the uses `left` by bodies given up. -/
def Tallies (m : Module) (pending : List Operation) (left : List ValueId) : Prop :=
  ∀ v, m.values.references v = (Operation.uses (m.operations ++ pending) ++ left).count v

namespace Tallies
variable {m' : Module} {pending pending' : List Operation}

theorem start (options : Options) (file : String) :
    (Module.start options file).Tallies [] [] := fun v => by
  simp [Module.start, ValueStore.references, ValueStore.get?, ValueStore.empty,
    Module.operations, Operation.uses]

section
variable (tallies : m.Tallies pending left)
include tallies

theorem extend {new : List Operation} (functions : m'.functions = m.functions)
    (references : ∀ v, m'.values.references v
      = m.values.references v + (Operation.uses new).count v) :
    m'.Tallies (pending ++ new) left := by
  have operations : m'.operations ++ (pending ++ new) = m.operations ++ pending ++ new := by
    rw [Module.operations, functions, append_assoc]
    rfl
  intro v
  have counted := tallies v
  rw [references, operations, Operation.uses_append, count_append, count_append]
  rw [count_append] at counted
  omega

theorem grow (functions : m'.functions = m.functions)
    (references : ∀ v, m'.values.references v = m.values.references v) :
    m'.Tallies pending left := by
  have grown : m'.Tallies (pending ++ []) left := tallies.extend functions references
  rwa [append_nil] at grown

theorem add (functions : m'.functions = m.functions)
    (values : m'.values = (m.values.add value).2) (unused : value.references = 0) :
    m'.Tallies pending left :=
  tallies.grow functions fun v => by rw [values, references_add unused]

theorem addAll {values : List Value} (unused : ∀ value ∈ values, value.references = 0) :
    { m with values := m.values.addAll values }.Tallies pending left := by
  induction values generalizing m with
  | nil => exact tallies
  | cons value rest ih =>
    rw [forall_mem_cons] at unused
    have first : { m with values := (m.values.add value).2 }.Tallies pending left :=
      tallies.add rfl rfl unused.1
    exact ih first unused.2

theorem push (known : ∀ v ∈ operation.operands, (m.values.get? v).isSome = true) :
    { m with values := operation.operands.foldl ValueStore.noteUse m.values }.Tallies
      (pending ++ [operation]) left := by
  refine tallies.extend rfl fun v => ?_
  rw [references_noteUses known]
  simp [Operation.uses]

theorem redeclare {decl' : Declaration} (known : m.function? function = some decl)
    (moved : (decl'.operations ++ pending').Perm (decl.operations ++ pending)) :
    (m.redeclare function decl').Tallies pending' left := by
  have perm := operations_redeclare known moved
  intro v
  have same := (perm.flatMap_right Operation.operands).count_eq v
  refine (tallies v).trans ?_
  rw [count_append, count_append]
  exact congrArg (· + left.count v) same.symm

theorem houses (houses : m.Houses m') : m'.Tallies pending left := by
  cases houses <;> exact tallies.add rfl rfl rfl

theorem abandon : m.Tallies [] (Operation.uses pending ++ left) := by
  intro v
  rw [tallies v, Operation.uses_append, append_nil, append_assoc]

end

end Tallies

end Module

namespace BodyBuilder
variable {b b' : BodyBuilder}

theorem Admits.known {made : Option Value} (admits : b.Admits operation made) :
    ∀ v ∈ operation.operands, (b.context.values.get? v).isSome = true := by
  have read {v : ValueId} {value : Value} (reads : b.Reads v value) :
      (b.context.values.get? v).isSome = true := by
    rw [reads.1]
    rfl
  have passed {args : List ValueId} {params : List Ty} (passes : b.Passes args params) :
      ∀ v ∈ args, (b.context.values.get? v).isSome = true := by
    induction passes with
    | nil => simp
    | cons passes _ ih =>
      obtain ⟨value, reads, _⟩ := passes
      exact forall_mem_cons.mpr ⟨read reads, ih⟩
  cases admits with
  | addressOf found legal => simp [Operation.operands, found]
  | @binary _ _ _ _ _ _ reads reads' _ swap =>
    cases swap <;> simp [Operation.operands, read reads, read reads']
  | call _ passes _ => exact passed passes
  | callIndirect reads _ passes _ =>
    exact forall_mem_append.mpr ⟨passed passes, by simp [read reads]⟩
  | compare reads reads' | store reads reads' => simp [Operation.operands, read reads, read reads']
  | update _ reads => simp [Operation.operands, read reads]
  | unary reads | convert reads | assign _ reads | dereference reads | member reads
  | branch reads | ret reads =>
    simp [Operation.operands, read reads]
  | functionAddress | label | jump | leave | comment => simp [Operation.operands]

theorem Admits.unused (admits : b.Admits operation (some value)) : value.references = 0 := by
  generalize is_made : some value = made at admits
  cases admits with
  | @call _ _ _ _ _ makes _ | @callIndirect _ _ _ _ _ _ _ makes _ =>
    cases makes <;> cases is_made; rfl
  | _ => cases is_made <;> rfl

/-- The uses that remain counted when the body is left: none if it is completed. -/
def abandoned (b : BodyBuilder) (completed : Bool) : List ValueId :=
  if completed && (Gen.outcome Build.finish b).1.isOk then [] else Operation.uses b.operations

end BodyBuilder

namespace Module

def abandons (m : Module) : ModuleCall → List ValueId
  | .define function names line body completed =>
    match Gen.outcome (Module.define function names line) m with
    | (.ok b, _) => (b.perform body).abandoned completed
    | (.error _, _) => []
  | _ => []

/-- The uses by bodies that were opened but not completed. -/
def abandoned (m : Module) : List ModuleCall → List ValueId
  | [] => []
  | call :: rest => m.abandons call ++ (m.perform call).abandoned rest

namespace Tallies
variable {b b' : BodyBuilder} {left' : List ValueId} {m' : Module}

theorem edit (tallies : b.context.Tallies b.operations left) (edit : b.Edit b') :
    b'.context.Tallies b'.operations left := by
  cases edit with
  | note loc diagnostics grows => exact tallies
  | constant description legal | newVariable name legal => exact tallies.add rfl rfl rfl
  | houses houses => exact tallies.houses houses
  | initialized => exact tallies.grow rfl fun _ => references_modify _ _ fun _ => rfl
  | @operation operation made admits =>
    have included :
        { b.context with values := b.context.values.including made }.Tallies b.operations left := by
      cases made with
      | none => exact tallies
      | some value => exact tallies.add rfl rfl admits.unused
    refine b.operations_push ⟨operation, b.loc⟩ ▸ included.push fun v member => ?_
    obtain ⟨value, found⟩ := Option.isSome_iff_exists.mp (admits.known v member)
    rw [get?_including, if_neg, found]
    · rfl
    · rintro rfl
      simp [get?_next] at found

theorem edits (tallies : b.context.Tallies b.operations left) (edits : b.Edits b') :
    b'.context.Tallies b'.operations left := by
  induction edits with
  | refl => exact tallies
  | tail _ edit ih => exact ih.edit edit

theorem leave (vetted : b.Vetted) (tallies : b.context.Tallies b.operations left)
    (completed : Bool) : (if completed then (Gen.outcome Build.finish b).2 else b).context.Tallies
      [] (b.abandoned completed ++ left) := by
  have given_up := tallies.abandon
  cases completed with
  | false => simpa [BodyBuilder.abandoned] using given_up
  | true =>
    obtain ⟨stopped, same⟩ | ⟨finished, closed⟩ := b.context_finish
    · simpa [BodyBuilder.abandoned, stopped, same] using given_up
    · simp only [BodyBuilder.abandoned, finished, ↓reduceIte, closed, Bool.and_self, nil_append]
      refine tallies.redeclare vetted.current ?_
      simp [Declaration.operations, vetted.undefined, BodyBuilder.operations]

section
variable (tallies : m.Tallies [] left)
include tallies

theorem reorder (perm : left.Perm left') : m.Tallies [] left' := fun v => by
  rw [tallies v, count_append, count_append, perm.count_eq]

theorem define {names : List String} {line : Nat}
    (is_open : Gen.Runs (Module.define function names line) m b m') :
    b.context.Tallies b.operations left := by
  obtain ⟨decl, frame, known, is_frame, undefined, length, rfl⟩ := define_ok is_open
  have added :
      { m with values := m.values.addAll (initialValues decl frame names) }.Tallies [] left :=
    tallies.addAll fun _ member => (of_initial member).2.1
  simp only [opening, including_returnBuffer]
  exact added.redeclare known (.refl _)

theorem step (step : m.Step m') : m'.Tallies [] left := by
  cases step with
  | declare declares =>
    intro v
    rw [declares.operations_push]
    exact tallies v
  | houses houses => exact tallies.houses houses
  | _ => exact tallies

theorem perform (vetted : m.Vetted) (call : ModuleCall) :
    (m.perform call).Tallies [] (m.abandons call ++ left) := by
  cases call with
  | define function names line body completed =>
    simp only [Module.perform, abandons]
    rcases is_open : Gen.outcome (Module.define function names line) m with ⟨e | b, m'⟩
    · rw [(define_error is_open).1]
      exact tallies
    · have edited := (tallies.define is_open).edits (b.edits_perform body)
      exact edited.leave ((vetted.define is_open).edits (b.edits_perform body)) completed
  | _ => exact tallies.step (m.step_perform rfl)

theorem performAll (vetted : m.Vetted) (calls : List ModuleCall) :
    (calls.foldl Module.perform m).Tallies [] (m.abandoned calls ++ left) := by
  induction calls generalizing m left with
  | nil => exact tallies
  | cons call rest ih =>
    refine (ih (tallies.perform vetted call) (vetted.perform call)).reorder ?_
    rw [Module.abandoned, ← append_assoc]
    exact perm_append_comm.append_right _

end

end Tallies

theorem tallies_build (options : Options) (file : String) (calls : List ModuleCall) :
    (build options file calls).Tallies [] ((Module.start options file).abandoned calls) := by
  simpa [build] using (Tallies.start options file).performAll (.start options file) calls

end Module

namespace Gen
variable {functions : Array Declaration}

theorem spends_lowerBody (items : List BodyItem) :
    Spends .parting c (Operation.uses (items.map BodyItem.operation))
    (lowerBody functions decl items) := by
  induction items generalizing c with
  | nil => exact spends_pure _
  | cons item rest ih => exact spends_then (spends_lowerItem item _).parting ih

theorem spends_bindParameters (binds : k ≠ .careful false)
    (params : List (ValueId × ArgumentPlace)) : Spends k c [] (bindParameters params) := by
  induction params generalizing c with
  | nil => exact spends_pure _
  | cons param rest ih =>
    obtain ⟨v, r | offset⟩ := param
    · exact spends_seq (spends_bindRegister binds r v) (spends_seq (spends_markDirty v) ih)
    · exact ih

theorem spends_lowerPrologue (binds : k ≠ .careful false) (decl : Declaration) (frame : FrameId) :
    Spends k c [] (lowerPrologue decl frame) :=
  spends_seq (spends_emit _) (spends_seq (spends_comment _)
    (spends_seq (spends_emit _) (spends_bindParameters binds _)))

theorem spends_lowerEpilogue (decl : Declaration) (frame : FrameId) :
    Spends k c [] (lowerEpilogue decl frame) :=
  spends_seq (spends_emit _) (spends_seq (spends_emit _) (spends_emit _))

theorem spends_enterFrame (frame : FrameId) : Spends k c [] (enterFrame frame) :=
  spends_still (mild_modify _) fun run => by rw [runs_modify.mp run]; exact ⟨rfl, fun _ => rfl⟩

theorem spends_leaveFrame : Spends k c [] leaveFrame :=
  spends_still (mild_modify _) fun run => by rw [runs_modify.mp run]; exact ⟨rfl, fun _ => rfl⟩

theorem spends_lowerEntry (functions : Array Declaration) (entry : Option FunctionId) :
    Spends k c [] (lowerEntry functions entry) := by
  unfold lowerEntry
  split
  · exact spends_pure _
  · split
    · exact spends_throw rfl
    · exact spends_seq (spends_emit _) (spends_seq (spends_emit _) (spends_emit _))

theorem spends_instructionCount : Spends k c [] instructionCount := spends_get (spends_pure _)

theorem spends_lowerFunction (decl : Declaration) :
    Spends .parting c (Operation.uses decl.operations) (lowerFunction functions decl) := by
  cases is_frame : decl.frame with
  | none =>
    rw [lowerFunction, is_frame]
    exact spends_throw rfl
  | some frame =>
    cases is_body : decl.body with
    | none =>
      rw [lowerFunction, is_frame, is_body]
      exact spends_throw rfl
    | some body =>
      rw [operations_of_body is_body]
      have parts : Spends .parting c (Operation.uses (body.map BodyItem.operation))
          (lowerParts functions decl frame body) := by
        refine spends_seq spends_instructionCount (spends_seq (spends_enterFrame frame) ?_)
        refine spends_seq (spends_lowerPrologue (by simp) decl frame)
          (spends_first (spends_lowerBody body) ?_)
        refine spends_when (fun _ => spends_retireRegisters)
          (spends_seq (spends_lowerEpilogue decl frame) ?_)
        exact spends_seq spends_leaveFrame
          (spends_seq spends_instructionCount (spends_seq (spends_record _) (spends_pure _)))
      cases occupied : c.registers.allOccupied with
      | nil =>
        refine parts.of_outcome ?_
        rw [outcome_lowerFunction_cases is_frame is_body, occupied]
      | cons pair rest =>
        have stopped : outcome (lowerFunction functions decl) c
            = outcome (inconsistent (.occupiedAtStart pair.1 pair.2 decl.name)) c := by
          rw [outcome_lowerFunction_cases is_frame is_body, occupied]
          rfl
        exact (spends_throw rfl).of_outcome stopped

theorem spends_lowerFunctions
    (hosted : ∀ decl ∈ decls, decl.isExternal = true → decl.operations = []) :
    Spends .parting c (Operation.uses (decls.flatMap Declaration.operations))
    (lowerFunctions functions decls) := by
  induction decls generalizing c with
  | nil => exact spends_pure _
  | cons decl rest ih =>
    rw [forall_mem_cons] at hosted
    rw [lowerFunctions, flatMap_cons, Operation.uses_append]
    have others {c : Context} :
        Spends .parting c (Operation.uses (rest.flatMap Declaration.operations))
        (lowerFunctions functions rest) := ih hosted.2
    refine spends_ite (fun external => ?_) fun _ => ?_
    · rw [hosted.1 external]
      exact spends_seq (spends_pure _) (spends_first others (spends_pure _))
    · exact spends_then (spends_first (spends_lowerFunction decl) (spends_pure _))
        (spends_first others (spends_pure _))

theorem runs_of_isOk {x : Gen Unit} (ok : (outcome x c).1.isOk = true) :
    Runs x c () (outcome x c).2 := by
  cases is_ok : outcome x c with
  | mk result c' =>
    rw [is_ok] at ok
    cases result with
    | ok => exact is_ok
    | error => cases ok

end Gen

namespace Operation

def ahead (items : List BodyItem) (later : List Declaration) : List Operation :=
  items.map BodyItem.operation ++ later.flatMap Declaration.operations

theorem ahead_cons (item : BodyItem) (items : List BodyItem) (later : List Declaration) :
    ahead (item :: items) later = [item.operation] ++ ahead items later := rfl

theorem ahead_function (decl : Declaration) (later : List Declaration) :
    ahead [] (decl :: later) = decl.operations ++ ahead [] later := rfl

end Operation

namespace Module
open Gen

variable {c' : Context} {later : List Declaration}

/-- What is counted in the context are the operands of the operations still to be lowered, and the
uses `left`. -/
structure Pays (m : Module) (left : List ValueId) (c : Context) (remaining : List Operation) :
    Prop where
  owned : c.Owned
  counted : ∀ v, c.values.references v = (Operation.uses remaining ++ left).count v

namespace Pays
variable {first remaining : List Operation} {α : Type} {x : Gen α}

theorem start (vetted : m.Vetted) (tallies : m.Tallies [] left) :
    m.Pays left m.context m.operations where
  owned := vetted.owned
  counted v := by
    have counted := tallies v
    rwa [append_nil] at counted

theorem step {a : α} (pays : m.Pays left c (first ++ remaining))
    (spends : Spends k c (Operation.uses first) x) (run : Runs x c a c') : m.Pays left c' remaining
      ∧ ∀ v, c.values.references v = c'.values.references v + (Operation.uses first).count v := by
  have counted (v : ValueId) := pays.counted v
  simp only [Operation.uses_append, count_append] at counted
  obtain ⟨owned, spent⟩ := (spends pays.owned).1 run
  have balance (v : ValueId) : c.values.references v = _ :=
    spent.references (by have := counted v; omega)
  refine ⟨⟨owned, fun v => ?_⟩, balance⟩
  have := counted v
  have := balance v
  rw [count_append]
  omega

theorem quiet {a : α} (pays : m.Pays left c remaining)
    (spends : Spends k c [] x) (run : Runs x c a c') : m.Pays left c' remaining :=
  (step (nil_append remaining ▸ pays) spends run).1

theorem not_mem_operands (pays : m.Pays left c remaining) (buried : c.Buries v) :
    ∀ operation ∈ remaining, v ∉ operation.operands := by
  intro operation member operand
  obtain ⟨value, found, dead⟩ := buried
  have counted := pays.counted v
  rw [references_eq found, (isDead_iff.mp dead).2, eq_comm, count_eq_zero] at counted
  exact counted (mem_append_left _ (mem_flatMap.mpr ⟨operation, member, operand⟩))

theorem lowerItem (pays : m.Pays left c (Operation.ahead (item :: rest) later))
    (run : Runs (lowerItem m.functions decl item isLast) c () c') :
    m.Pays left c' (Operation.ahead rest later)
      ∧ ∀ v, c.values.references v = c'.values.references v + item.operation.operands.count v := by
  have spends : Spends _ c _ (Gen.lowerItem m.functions decl item isLast) :=
    spends_lowerItem item isLast
  rw [← Operation.uses_singleton] at spends ⊢
  exact step (Operation.ahead_cons .. ▸ pays) spends run

theorem buries_of_dropped (pays : m.Pays left c remaining)
    (careful : item.operation.isReturn = false) (run : Runs
      (Gen.lowerItem m.functions decl item isLast) c () c') (found : c.values.get? v = some value)
    (unnamed : value.isUnnamed = true) (here : value.position.isSome = true)
    (found' : c'.values.get? v = some value') (gone : value'.position = none) : c'.Buries v := by
  obtain ⟨_, spent⟩ := (spends_lowerItem item isLast pays.owned).1 run
  obtain ⟨_, same, spent_v⟩ := spent.found found
  obtain rfl := Option.mem_unique found' same
  have lasting : item.operation.manner ≠ .parting := by simp [Operation.manner, careful]
  refine ⟨_, found', isDead_iff.mpr ⟨?_, ?_⟩⟩
  · rw [isNamed, (kinds_of_isUnnamed (spent_v.unnamed.trans unnamed)).1]
    rfl
  · by_contra left
    have still := spent_v.kept lasting unnamed (Nat.pos_of_ne_zero left) here
    simp [gone] at still

end Pays

theorem exists_function (known : decl ∈ m.functions.toList) : ∃ f, m.function? f = some decl := by
  obtain ⟨i, at_i⟩ := mem_iff_getElem?.mp known
  exact ⟨⟨i⟩, by simpa [function?] using at_i⟩

theorem Vetted.operations_hosted (vetted : m.Vetted) (known : decl ∈ m.functions.toList)
    (external : decl.isExternal = true) : decl.operations = [] := by
  obtain ⟨f, is_f⟩ := exists_function known
  simp [Declaration.operations, (vetted.hosted is_f external).2.2]

section
variable (vetted : m.Vetted) (tallies : m.Tallies [] left)
include vetted tallies

theorem Visits.pays (visits : m.Visits decls c) : m.Pays left c (Operation.ahead [] decls) := by
  induction visits with
  | entry run => exact (Pays.start vetted tallies).quiet (spends_lowerEntry (k := .parting) _ _) run
  | external visits external ih =>
    rw [Operation.ahead_function, vetted.operations_hosted
      (visits.suffix.subset (mem_cons_self ..)) external] at ih
    exact ih
  | function visits _ run ih =>
    rw [Operation.ahead_function] at ih
    exact (ih.step (spends_lowerFunction _) run).1

theorem Reaches.pays (reaches : m.Reaches decl later items c) :
    m.Pays left c (Operation.ahead items later) := by
  induction reaches with
  | @body frame body c c' visits internal is_frame is_body entered =>
    have pays := visits.pays vetted tallies
    rw [Operation.ahead_function, operations_of_body is_body] at pays
    have both : Runs (do enterFrame frame; lowerPrologue decl frame) c () c' :=
      runs_bind.mpr ⟨(), _, runs_modify.mpr rfl, entered⟩
    exact pays.quiet (k := .parting)
      (spends_seq (spends_enterFrame frame) (spends_lowerPrologue (by simp) decl frame)) both
  | item reaches run ih => exact (ih.lowerItem run).1

theorem finish_ne_underflow {fault : Fault} (stopped : m.finish = .error fault) :
    fault.isUnderflow = false := by
  obtain ⟨decl, rfl⟩ | rfl | ⟨c, failed⟩ := stopped_of_finish stopped
  · rfl
  · rfl
  · have pays := Pays.start vetted tallies
    have spends : Spends .parting m.context (Operation.uses m.operations)
        (lowerModule m.functions m.entry) :=
      spends_seq (spends_lowerEntry _ _)
        (spends_lowerFunctions fun decl => vetted.operations_hosted)
    refine (spends pays.owned).2 (fun v => ?_) failed
    rw [pays.counted, count_append]
    exact Nat.le_add_right _ _

end

/-- However a module was built, what is counted for a value are the operands of the operations not
yet lowered and those of bodies given up. So an operation spends what it uses, no use is missing,
and what is dropped as dead is not used again. -/
theorem references_exact (options : Options) (file : String) (calls : List ModuleCall) :
    let m := build options file calls
    let left := (Module.start options file).abandoned calls
    (∀ {decls c}, m.Visits decls c →
        ∀ v, c.values.references v = (Operation.uses (Operation.ahead [] decls) ++ left).count v)
      ∧ (∀ {decl later items c}, m.Reaches decl later items c →
        ∀ v, c.values.references v = (Operation.uses (Operation.ahead items later) ++ left).count v)
      ∧ (∀ {decl later item rest c c'}, m.Reaches decl later (item :: rest) c →
        Runs (lowerItem m.functions decl item rest.isEmpty) c () c' →
        ∀ v, c.values.references v = c'.values.references v + item.operation.operands.count v)
      ∧ (∀ v description,
        m.finish ≠ .error (.failed (.inconsistent (.referenceUnderflow v description))))
      ∧ (∀ {decl later items c v}, m.Reaches decl later items c → c.Buries v →
        ∀ operation ∈ Operation.ahead items later, v ∉ operation.operands)
      ∧ ∀ {decl later item rest c c' v value value'}, m.Reaches decl later (item :: rest) c →
        Runs (lowerItem m.functions decl item rest.isEmpty) c () c' →
          item.operation.isReturn = false →
        c.values.get? v = some value → value.isUnnamed = true → value.position.isSome = true →
        c'.values.get? v = some value' → value'.position = none →
        ∀ operation ∈ Operation.ahead rest later, v ∉ operation.operands := by
  intro m left
  have vetted : m.Vetted := vetted_build options file calls
  have tallies : m.Tallies [] left := tallies_build options file calls
  refine ⟨fun visits => (visits.pays vetted tallies).counted, fun reaches =>
    (reaches.pays vetted tallies).counted,
    fun reaches run => ?_, fun v description stopped => ?_,
      fun {decl later items c v} reaches buried => ?_,
    fun {decl later item rest c c' v value value'} reaches run careful found unnamed here
      found' gone => ?_⟩
  · exact ((reaches.pays vetted tallies).lowerItem run).2
  · cases finish_ne_underflow vetted tallies stopped
  · exact (reaches.pays vetted tallies).not_mem_operands buried
  · have buried :=
      (reaches.pays vetted tallies).buries_of_dropped careful run found unnamed here found' gone
    exact ((reaches.item run).pays vetted tallies).not_mem_operands buried

def retriedCalls : List ModuleCall :=
  [.declareStatic "s" .i64 1, .declare "f" ⟨[.i64], .i64⟩ .internal 2,
    .define ⟨0⟩ ["x"] 3 [.ret (some ⟨0⟩)] false,
    .define ⟨0⟩ ["x"] 4 [.binary .mul ⟨2⟩ ⟨2⟩, .binary .add ⟨3⟩ ⟨0⟩, .ret (some ⟨4⟩)] true]

def retriedFunction : Declaration := (build {} "retry.c" retriedCalls).functions[0]!

def retriedSquare : BodyItem := ⟨.binary .mul ⟨2⟩ ⟨2⟩ ⟨3⟩ false, ⟨"retry.c", 4⟩⟩

def retriedRest : List BodyItem :=
  [⟨.binary .add ⟨3⟩ ⟨0⟩ ⟨4⟩ false, ⟨"retry.c", 4⟩⟩, ⟨.ret (some ⟨4⟩), ⟨"retry.c", 4⟩⟩]

def retriedStart : Context :=
  (outcome (lowerPrologue retriedFunction ⟨0⟩)
    { (build {} "retry.c" retriedCalls).context with currentFrame := some ⟨0⟩ }).2

/-- The square spends both uses of the parameter, and the static variable keeps the one of the body
that was given up. -/
theorem references_exact_retried : (build {} "retry.c" retriedCalls).Reaches retriedFunction []
    (retriedSquare :: retriedRest) retriedStart
      ∧ retriedStart.values.references ⟨2⟩ = 2
      ∧ ∃ c, Runs (lowerItem
        (build {} "retry.c" retriedCalls).functions retriedFunction retriedSquare false)
          retriedStart () c
        ∧ c.values.references ⟨2⟩ = 0 ∧ c.values.references ⟨0⟩ = 2 := by
  obtain ⟨_, counted, _⟩ := references_exact {} "retry.c" retriedCalls
  have left : (start {} "retry.c").abandoned retriedCalls = [⟨0⟩] := by decide +kernel
  have visits : (build {} "retry.c" retriedCalls).Visits [retriedFunction]
      (build {} "retry.c" retriedCalls).context := by
    have listed : (build {} "retry.c" retriedCalls).functions.toList
        = [retriedFunction] := by decide +kernel
    have no_entry : (build {} "retry.c" retriedCalls).entry = none := by decide +kernel
    rw [← listed]
    exact .entry (by rw [no_entry]; exact runs_pure.mpr ⟨rfl, rfl⟩)
  have reaches : (build {} "retry.c" retriedCalls).Reaches retriedFunction []
      (retriedSquare :: retriedRest)
      retriedStart :=
    .body visits (by decide +kernel) (by decide +kernel) (by decide +kernel)
      (runs_of_isOk (by decide +kernel))
  have run := runs_of_isOk
      (x := lowerItem (build {} "retry.c" retriedCalls).functions retriedFunction retriedSquare
    false) (c := retriedStart) (by decide +kernel)
  have after := counted (reaches.item run)
  rw [left] at counted after
  exact ⟨reaches, (counted reaches ⟨2⟩).trans (by decide), _, run, (after ⟨2⟩).trans (by decide),
    (after ⟨0⟩).trans (by decide)⟩

end Module

end RegisterBackend
