import RegisterBackend.Proofs.Charter
import RegisterBackend.Proofs.Precision

/-!
Functions are well bracketed: each enters its frame once, leaves it once and returns once, at its
end. So the stack pointer is at the return where it was at the start.
-/
namespace RegisterBackend

open Gen Context List Instr

variable {after before first second : List Instr} {c c' : Context}
  {decl : Declaration} {frame : FrameId} {hw : Hardware} {i : Instr} {m : Module} {n : Nat}
  {ok : Instr → Prop} {q q' : Processor} {decls : List Declaration} {functions : Array Declaration}
  {label target : LabelId}

namespace Instr

def isPush : Instr → Bool
  | .push _ => true
  | .pushImm _ => true
  | _ => false

/-- The instruction moves the stack pointer by the size of a frame or of the statics. -/
def isAdjust : Instr → Bool
  | .stackAdjust _ => true
  | _ => false

/-- The label that control may go to instead of the next instruction. -/
def jumpsTo? : Instr → Option LabelId
  | .jump target => some target
  | .jumpIf _ target _ => some target
  | _ => none

theorem jumpsTo?_eq_some (jumps : i.jumpsTo? = some target) :
    i = .jump target ∨ ∃ r whenNonzero, i = .jumpIf r target whenNonzero := by
  cases i with
  | jump => cases jumps; exact .inl rfl
  | jumpIf => cases jumps; exact .inr ⟨_, _, rfl⟩
  | _ => cases jumps

/-- The number of pushes at the end, after `n` others. -/
def pushesAfter (n : Nat) (code : List Instr) : Nat :=
  code.foldl (fun n i => if i.isPush then n + 1 else 0) n

/-- The code goes on so after `n` pushes: they are followed by more or by the call of a host
function, and between such calls there are instructions of `ok` only. -/
inductive Continues (ok : Instr → Prop) : Nat → List Instr → Prop
  | nil : Continues ok 0 []
  | push {n : Nat} {i : Instr} {rest : List Instr} : i.isPush = true → Continues ok (n + 1) rest →
      Continues ok n (i :: rest)
  | host {n : Nat} {dst : Register} {rest : List Instr} : Continues ok 0 rest →
      Continues ok n (.callExternal dst :: rest)
  | other {i : Instr} {rest : List Instr} : i.isPush = false → ok i → Continues ok 0 rest →
      Continues ok 0 (i :: rest)

namespace Continues
variable {ok' : Instr → Prop} {code : List Instr}

theorem append (continues : Continues ok n first) (rest : Continues ok 0 second) :
    Continues ok n (first ++ second) := by
  induction continues with
  | nil => exact rest
  | push pushes _ ih => exact .push pushes ih
  | host _ ih => exact .host ih
  | other stays legal _ ih => exact .other stays legal ih

theorem mono (continues : Continues ok n code) (weaker : ∀ i ∈ code, ok i → ok' i) :
    Continues ok' n code := by
  induction continues with
  | nil => exact .nil
  | push pushes _ ih => exact .push pushes (ih fun i member => weaker i (.tail _ member))
  | host _ ih => exact .host (ih fun i member => weaker i (.tail _ member))
  | other stays legal _ ih =>
    exact .other stays (weaker _ (.head _) legal) (ih fun i member => weaker i (.tail _ member))

theorem drop (continues : Continues ok n (first ++ second)) :
    Continues ok (pushesAfter n first) second := by
  induction first generalizing n with
  | nil => exact continues
  | cons i rest ih =>
    cases continues with
    | push pushes rest => simpa [pushesAfter, pushes] using ih rest
    | host rest => simpa [pushesAfter, isPush] using ih rest
    | other stays legal rest => simpa [pushesAfter, stays] using ih rest

theorem host_of_pos (continues : Continues ok n code) (some_pushed : 0 < n) :
    ∃ run dst rest, code = run ++ .callExternal dst :: rest ∧ ∀ i ∈ run, i.isPush = true := by
  induction continues with
  | nil => exact absurd some_pushed (Nat.lt_irrefl 0)
  | @push n i rest pushes _ ih =>
    obtain ⟨run, dst, rest, rfl, all⟩ := ih (Nat.succ_pos n)
    exact ⟨i :: run, dst, rest, rfl, forall_mem_cons.mpr ⟨pushes, all⟩⟩
  | @host n dst rest _ => exact ⟨[], dst, rest, rfl, by simp⟩
  | other => exact absurd some_pushed (Nat.lt_irrefl 0)

theorem mem_ok (continues : Continues ok n code) (member : i ∈ code) :
    i.isPush = true ∨ (∃ dst, i = .callExternal dst) ∨ ok i := by
  induction continues with
  | nil => cases member
  | push pushes _ ih =>
    cases member with
    | head => exact .inl pushes
    | tail _ later => exact ih later
  | host _ ih =>
    cases member with
    | head => exact .inr (.inl ⟨_, rfl⟩)
    | tail _ later => exact ih later
  | other stays legal _ ih =>
    cases member with
    | head => exact .inr (.inr legal)
    | tail _ later => exact ih later

theorem pushes_eq_zero (continues : Continues ok 0 (first ++ i :: second))
    (stays : i.isPush = false) (inside : ∀ dst, i ≠ .callExternal dst) :
    pushesAfter 0 first = 0 := by
  generalize pushes : pushesAfter 0 first = n
  have rest := pushes ▸ continues.drop
  cases rest with
  | push pushes _ => cases stays.symm.trans pushes
  | host _ => exact (inside _ rfl).elim
  | other => rfl

theorem complete (continues : Continues ok 0 code) : pushesAfter 0 code = 0 := by
  rw [← append_nil code] at continues
  generalize pushes : pushesAfter 0 code = n
  have rest := pushes ▸ continues.drop
  cases rest
  rfl

end Continues

end Instr

namespace Processor

/-- One step of a machine in a function. The functions that it calls give control back with the
stack pointer as it was, and the host takes what was pushed for it. -/
inductive Passes (hw : Hardware) (l : Link) (code : List Instr) (q : Processor) : Processor → Prop
  | inner {q' : Processor} : q.step? hw l code = some q' → Passes hw l code q q'
  | push {r : Register} :
      code[q.pc]? = some (.push r) → Passes hw l code q (q.pushed (q.state.registers r))
  | pushImm {bits : Word} : code[q.pc]? = some (.pushImm bits) → Passes hw l code q (q.pushed bits)
  | call {q' : Processor} {i : Instr} : code[q.pc]? = some i →
      ((∃ target, i = .call target) ∨ ∃ r, i = .callPtr r) → q'.pc = q.pc + 1 → q'.sp = q.sp →
      Passes hw l code q q'
  | host {q' : Processor} {dst : Register} :
      code[q.pc]? = some (.callExternal dst) → q'.pc = q.pc + 1 →
      q'.sp = q.sp - 8 * BitVec.ofNat 64 (Instr.pushesAfter 0 (code.take q.pc)) →
      Passes hw l code q q'

variable {l : Link} {code : List Instr}

/-- The stack pointer after an instruction that is followed by the next one, if `n` words were
pushed before it. -/
def spAfter (l : Link) (n : Nat) (sp : Word) : Instr → Word
  | .stackAdjust amount => sp + l.amount amount
  | .push _ => sp + 8
  | .pushImm _ => sp + 8
  | .callExternal _ => sp - 8 * BitVec.ofNat 64 n
  | _ => sp

theorem Passes.cases (passes : Passes hw l code q q') : ∃ i, code[q.pc]? = some i ∧ i ≠ .ret
    ∧ ((∃ target, i.jumpsTo? = some target ∧ q'.sp = q.sp ∧ labelIndex? code target = some q'.pc)
      ∨ q'.pc = q.pc + 1 ∧ q'.sp = spAfter l (Instr.pushesAfter 0 (code.take q.pc)) q.sp i) := by
  cases passes with
  | push fetched | pushImm fetched => exact ⟨_, fetched, by simp, .inr ⟨rfl, rfl⟩⟩
  | host fetched forth sp => exact ⟨_, fetched, by simp, .inr ⟨forth, sp⟩⟩
  | call fetched calls forth sp =>
    obtain ⟨target, rfl⟩ | ⟨r, rfl⟩ := calls
    · exact ⟨_, fetched, by simp, .inr ⟨forth, sp⟩⟩
    · exact ⟨_, fetched, by simp, .inr ⟨forth, sp⟩⟩
  | inner step =>
    unfold step? at step
    split at step
    · cases step
    · next amount fetched =>
      cases step
      exact ⟨_, fetched, by simp, .inr ⟨rfl, rfl⟩⟩
    · next target fetched =>
      obtain ⟨pc, found, rfl⟩ := Option.map_eq_some_iff.mp step
      exact ⟨_, fetched, by simp, .inl ⟨target, rfl, rfl, found⟩⟩
    · next r target whenNonzero fetched =>
      split at step
      · obtain ⟨pc, found, rfl⟩ := Option.map_eq_some_iff.mp step
        exact ⟨_, fetched, by simp, .inl ⟨target, rfl, rfl, found⟩⟩
      · cases step
        exact ⟨_, fetched, by simp, .inr ⟨rfl, rfl⟩⟩
    · next i _ _ _ fetched =>
      obtain ⟨state, executed, rfl⟩ := Option.map_eq_some_iff.mp step
      refine ⟨_, fetched, ?_, .inr ⟨rfl, ?_⟩⟩
      · rintro rfl
        simp [execute] at executed
      · cases i <;> first | rfl | simp [execute] at executed

end Processor

/-- The stack pointer and the number of words on top of it that are meant for a host function, after
a stretch of code without jumps. -/
def Link.level (l : Link) (start : Word × Nat) (code : List Instr) : Word × Nat :=
  code.foldl (fun level i =>
    (Processor.spAfter l level.2 level.1 i, if i.isPush then level.2 + 1 else 0)) start

namespace Link
variable (l : Link)

theorem level_append (start : Word × Nat) :
    l.level start (first ++ second) = l.level (l.level start first) second := foldl_append

theorem level_pushes (start : Word × Nat) (code : List Instr) :
    (l.level start code).2 = Instr.pushesAfter start.2 code := by
  induction code generalizing start with
  | nil => rfl
  | cons i rest ih => exact ih _

theorem level_concat (start : Word × Nat) (code : List Instr) (i : Instr) :
    (l.level start (code ++ [i])).1
      = Processor.spAfter l (Instr.pushesAfter start.2 code) (l.level start code).1 i := by
  rw [level_append, ← level_pushes]
  rfl

theorem level_of_continues (sp : Word) (fixed : ∀ i, ok i → i.isAdjust = false)
    (continues : Instr.Continues ok n (first ++ second)) :
    (l.level (sp + 8 * BitVec.ofNat 64 n, n) first).1 = sp + 8 * BitVec.ofNat 64
    (Instr.pushesAfter n first) := by
  induction first generalizing n with
  | nil => rfl
  | cons i rest ih =>
    cases continues with
    | push pushes rest =>
      have next : Processor.spAfter l n (sp + 8 * BitVec.ofNat 64 n) i
          = sp + 8 * BitVec.ofNat 64 (n + 1) := by
        have moved : sp + 8 * BitVec.ofNat 64 n + 8 = sp + 8 * BitVec.ofNat 64 (n + 1) := by
          rw [BitVec.ofNat_add, BitVec.mul_add, BitVec.add_assoc]
          rfl
        cases i <;> first | exact moved | cases pushes
      have later := ih rest
      simp only [level, Instr.pushesAfter, foldl_cons, next, pushes] at later ⊢
      exact later
    | host rest =>
      have next : sp + 8 * BitVec.ofNat 64 n - 8 * BitVec.ofNat 64 n
          = sp + 8 * BitVec.ofNat 64 0 := by
        rw [BitVec.add_sub_cancel]
        simp
      have later := ih rest
      simp only [level, Instr.pushesAfter, foldl_cons, Processor.spAfter, next] at later ⊢
      exact later
    | other stays legal rest =>
      have next : Processor.spAfter l 0 (sp + 8 * BitVec.ofNat 64 0) i
          = sp + 8 * BitVec.ofNat 64 0 := by
        have unmoved := fixed i legal
        cases i with
        | stackAdjust => cases unmoved
        | push | pushImm => cases stays
        | callExternal => exact BitVec.sub_zero _
        | _ => rfl
      have later := ih rest
      simp only [level, Instr.pushesAfter, foldl_cons, next, stays] at later ⊢
      exact later

end Link

theorem index_of_label {code : List Instr} (distinct : (code.filterMap Instr.label?).Nodup)
    (split : code = before ++ .label label :: after) {k : Nat}
    (found : code[k]? = some (.label label)) : k = before.length := by
  have elsewhere : label ∉ before.filterMap Instr.label?
      ∧ label ∉ after.filterMap Instr.label? := by
    rw [split, filterMap_append, nodup_append] at distinct
    exact ⟨fun member => distinct.2.2 _ member _ (.head _) rfl, (nodup_cons.mp distinct.2.1).1⟩
  have absent {part : List Instr} (missing : label ∉ part.filterMap Instr.label?) :
      .label label ∉ part :=
    fun member => missing (mem_filterMap.mpr ⟨_, member, rfl⟩)
  rw [split] at found
  obtain smaller | same | larger := lt_trichotomy k before.length
  · rw [getElem?_append_left smaller] at found
    exact (absent elsewhere.1 (mem_of_getElem? found)).elim
  · exact same
  · rw [getElem?_append_right larger.le] at found
    obtain ⟨j, is_index⟩ : ∃ j, k - before.length = j + 1 := ⟨k - before.length - 1, by omega⟩
    rw [is_index, getElem?_cons_succ] at found
    exact (absent elsewhere.2 (mem_of_getElem? found)).elim

theorem split_right (split : first ++ second = before ++ i :: after) (outside : i ∉ first) :
    ∃ early, before = first ++ early ∧ second = early ++ i :: after := by
  obtain ⟨early, is_before, is_second⟩ | ⟨shared, is_first, rest⟩ := append_eq_append_iff.mp split
  · exact ⟨early, is_before, is_second⟩
  · cases shared with
    | nil => exact ⟨[], by rw [is_first, append_nil, append_nil], rest.symm⟩
    | cons j shared =>
      injection rest with same
      exact (outside (by simp [is_first, same])).elim

theorem split_left (split : first ++ second = before ++ i :: after) (outside : i ∉ second) :
    ∃ late, first = before ++ i :: late ∧ after = late ++ second := by
  obtain ⟨early, is_before, is_second⟩ | ⟨shared, is_first, rest⟩ := append_eq_append_iff.mp split
  · exact (outside (by simp [is_second])).elim
  · cases shared with
    | nil => exact (outside (by simp [← show i :: after = second from rest])).elim
    | cons j shared =>
      injection rest with same rest
      exact ⟨shared, by rw [is_first, same], rest⟩

namespace Declaration
variable {code remarks body : List Instr}

/-- Control may go to the label from inside the function. -/
def Targets (decl : Declaration) (label : LabelId) : Prop :=
  label ∈ Operation.labels decl.operations ∨ label = decl.epilogue

/-- An instruction that a rule of an operation may write, pushes and calls of the host apart. -/
def Stays (decl : Declaration) (i : Instr) : Prop :=
  i.isAdjust = false ∧ i ≠ .ret ∧ ∀ label, i.jumpsTo? = some label → decl.Targets label

def opening (decl : Declaration) (frame : FrameId) (remarks : List Instr) : List Instr :=
  .label decl.start :: remarks ++ [.stackAdjust (.enter frame)]

def closing (decl : Declaration) (frame : FrameId) : List Instr :=
  [.label decl.epilogue, .stackAdjust (.leave frame), .ret]

structure Parts (decl : Declaration) (frame : FrameId) (remarks body code : List Instr) : Prop where
  code_eq : code = decl.opening frame remarks ++ (body ++ decl.closing frame)
  noted : ∀ i ∈ remarks, i.isRemark = true
  continues : Instr.Continues decl.Stays 0 body
  labels : body.filterMap Instr.label? = Operation.labels decl.operations

namespace Parts
variable (parts : decl.Parts frame remarks body code)
include parts

theorem pushes : Instr.Continues (fun _ => True) 0 code := by
  have plain {i : Instr} (remark : i.isRemark = true) : i.isPush = false := by
    cases i <;> first | rfl | cases remark
  have noted : Instr.Continues (fun _ => True) 0 remarks := by
    have all := parts.noted
    clear parts
    induction remarks with
    | nil => exact .nil
    | cons i rest ih =>
      exact .other (plain (all i (.head _))) trivial (ih fun i member => all i (.tail _ member))
  rw [parts.code_eq]
  refine .append (.other rfl trivial (noted.append (.other rfl trivial .nil))) ?_
  refine (parts.continues.mono fun _ _ _ => trivial).append ?_
  exact .other rfl trivial (.other rfl trivial (.other rfl trivial .nil))

theorem label_mem (listed : label ∈ Operation.labels decl.operations) : .label label ∈ body := by
  rw [← parts.labels, mem_filterMap] at listed
  obtain ⟨i, member, is_label⟩ := listed
  cases i <;> cases is_label
  exact member

theorem inside (split : code = before ++ i :: after)
    (outside : i ∉ decl.opening frame remarks) (outside' : i ∉ decl.closing frame) :
    ∃ early late, before = decl.opening frame remarks ++ early ∧ body = early ++ i :: late := by
  obtain ⟨early, is_before, rest⟩ := split_right (parts.code_eq.symm.trans split) outside
  obtain ⟨late, is_body, -⟩ := split_left rest outside'
  exact ⟨early, late, is_before, is_body⟩

theorem ret_unique (split : code = before ++ .ret :: after) : before = decl.opening frame
    remarks ++ (body ++ decl.departure frame) := by
  have outside : .ret ∉ decl.opening frame remarks := by
    have noted : .ret ∉ remarks := fun member => by cases parts.noted _ member
    simpa [opening] using noted
  have outside' : .ret ∉ body := fun member => by
    obtain pushes | ⟨_, calls⟩ | stays := parts.continues.mem_ok member
    · cases pushes
    · cases calls
    · exact stays.2.1 rfl
  obtain ⟨early, is_before, after_opening⟩ := split_right (parts.code_eq.symm.trans split) outside
  obtain ⟨last, is_early, ends⟩ := split_right after_opening outside'
  have ends : decl.departure frame ++ [.ret]
      = last ++ .ret :: after := ends
  obtain ⟨missing, is_last, single⟩ := split_right ends (by simp)
  obtain rfl : missing = [] := by
    cases missing with
    | nil => rfl
    | cons => simp at single
  rw [is_before, is_early, is_last, append_nil]

theorem level_body (l : Link) (sp : Word) {early late : List Instr} (split : body = early ++ late)
    (complete : Instr.pushesAfter 0 early = 0) :
    (l.level (sp, 0) (decl.opening frame remarks ++ early)).1 = sp + l.amount (.enter frame) := by
  have noted (start : Word) : l.level (start, 0) remarks = (start, 0) := by
    have all := parts.noted
    clear parts
    induction remarks with
    | nil => rfl
    | cons i rest ih =>
      have remark := all i (.head _)
      have rest := ih fun i member => all i (.tail _ member)
      cases i <;> first | exact rest | cases remark
  have opened : l.level (sp, 0) (decl.opening frame remarks)
      = (sp + l.amount (.enter frame), 0) := by
    rw [opening, l.level_append]
    change l.level (l.level (sp, 0) remarks) _ = _
    rw [noted]
    rfl
  have inside := l.level_of_continues (sp + l.amount (.enter frame)) (fun i stays => stays.1)
    (split ▸ parts.continues)
  have zero (w : Word) : w + 8 * BitVec.ofNat 64 0 = w := by simp
  rw [l.level_append, opened]
  rwa [complete, zero] at inside

end Parts

/-- The machine is in the code of a function, with the stack pointer where the code before it in the
function puts it. -/
def Balances (l : Link) (outer code : List Instr) (sp : Word) (q : Processor) : Prop :=
  ∃ done todo, code = done ++ todo ∧ todo ≠ [] ∧ q.pc = outer.length + done.length
    ∧ q.sp = (l.level (sp, 0) done).1

theorem Balances.fetched {l : Link} {outer beyond program : List Instr} {sp : Word}
    (balances : Balances l outer code sp q) (whole : program = outer ++ (code ++ beyond))
    (fetched : program[q.pc]? = some i) : ∃ done rest, code = done ++ i :: rest
      ∧ q.pc = outer.length + done.length ∧ q.sp = (l.level (sp, 0) done).1 := by
  obtain ⟨done, todo, split, unfinished, here, level⟩ := balances
  cases todo with
  | nil => exact (unfinished rfl).elim
  | cons j rest =>
    have same : program[q.pc]? = some j := by
      rw [whole, split, here]
      simp
    rw [Option.mem_unique fetched same]
    exact ⟨done, rest, split, here, level⟩

namespace Parts
variable {l : Link} {outer beyond program : List Instr} {sp : Word}
variable (parts : decl.Parts frame remarks body code) (whole : program = outer ++ (code ++ beyond))
include parts whole

section
variable (distinct : (program.filterMap Instr.label?).Nodup)
include distinct

theorem balances_target (target : decl.Targets label)
    (found : labelIndex? program label = some q.pc)
    (entered : q.sp = sp + l.amount (.enter frame)) : Balances l outer code sp q := by
  obtain ⟨early, late, ends, is_body, is_rest, complete⟩ : ∃ early late ends, body = early ++ late
      ∧ late ++ decl.closing frame = .label label :: ends ∧ Instr.pushesAfter 0 early = 0 := by
    obtain inside | rfl := target
    · obtain ⟨early, late, is_body⟩ := append_of_mem (parts.label_mem inside)
      refine ⟨early, .label label :: late, late ++ decl.closing frame, is_body, rfl, ?_⟩
      exact (is_body ▸ parts.continues).pushes_eq_zero rfl (by simp)
    · exact ⟨body, [], _, (append_nil _).symm, rfl, parts.continues.complete⟩
  have split : code = (decl.opening frame remarks ++ early) ++ .label label :: ends := by
    rw [parts.code_eq, is_body, append_assoc, is_rest, append_assoc]
  refine ⟨decl.opening frame remarks ++ early, .label label :: ends, split, by simp, ?_, ?_⟩
  · have there : program = (outer ++ (decl.opening frame remarks ++ early)) ++ .label
        label :: (ends ++ beyond) := by
      rw [whole, split]
      simp
    rw [index_of_label distinct there (getElem?_labelIndex? found), length_append]
  · rw [entered, parts.level_body l sp is_body complete]

theorem balances_step (balances : Balances l outer code sp q)
    (passes : q.Passes hw l program q') : Balances l outer code sp q' := by
  obtain ⟨i, fetched, inner, moves⟩ := passes.cases
  obtain ⟨done, rest, split, here, level⟩ := balances.fetched whole fetched
  obtain ⟨target, is_target, kept, found⟩ | ⟨forth, moved⟩ := moves
  · have jumps := Instr.jumpsTo?_eq_some is_target
    have outside : i ∉ decl.opening frame remarks := by
      have noted : i ∉ remarks := fun member => by
        have remark := parts.noted i member
        obtain rfl | ⟨r, whenNonzero, rfl⟩ := jumps <;> cases remark
      obtain rfl | ⟨r, whenNonzero, rfl⟩ := jumps <;> simpa [opening] using noted
    have outside' : i ∉ decl.closing frame := by
      obtain rfl | ⟨r, whenNonzero, rfl⟩ := jumps <;> simp [closing]
    obtain ⟨early, late, rfl, is_body⟩ := parts.inside split outside outside'
    have stays : i.isPush = false ∧ ∀ dst, i ≠ .callExternal dst := by
      obtain rfl | ⟨r, whenNonzero, rfl⟩ := jumps <;> exact ⟨rfl, by simp⟩
    have complete := (is_body ▸ parts.continues).pushes_eq_zero stays.1 stays.2
    rw [parts.level_body l sp is_body complete] at level
    have targets : decl.Targets target := by
      obtain pushes | ⟨dst, calls⟩ | stay := parts.continues.mem_ok (i := i) (by simp [is_body])
      · cases stays.1.symm.trans pushes
      · exact (stays.2 dst calls).elim
      · exact stay.2.2 target is_target
    exact parts.balances_target whole distinct targets found (kept.trans level)
  · have beyond : rest ≠ [] := by
      rintro rfl
      have last := congrArg List.getLast? (parts.code_eq.symm.trans split)
      simp [closing] at last
      exact inner last.symm
    refine ⟨done ++ [i], rest, by simp [split], beyond, by simp [forth, here, Nat.add_assoc], ?_⟩
    rw [l.level_concat, moved, ← level]
    cases done with
    | nil =>
      injection parts.code_eq.symm.trans split with is_label
      rw [← is_label]
      rfl
    | cons first more =>
      obtain rfl : .label decl.start = first := by
        injection parts.code_eq.symm.trans split
      have before : program.take q.pc = outer ++ .label decl.start :: more := by
        rw [whole, split, here, ← length_append, append_assoc, ← append_assoc outer, take_left]
      rw [before, Instr.pushesAfter, foldl_append]
      rfl

theorem balances_path (begins : q.pc = outer.length)
    (path : Relation.ReflTransGen (Processor.Passes hw l program) q q') :
    Balances l outer code q.sp q' := by
  induction path with
  | refl =>
    refine ⟨[], code, rfl, ?_, begins, rfl⟩
    rw [parts.code_eq]
    simp [opening]
  | tail _ passes ih => exact parts.balances_step whole distinct ih passes

end

theorem sp_of_ret (balances : Balances l outer code sp q) (returns : program[q.pc]? = some .ret) :
    q.sp = sp := by
  obtain ⟨done, rest, split, -, level⟩ := balances.fetched whole returns
  have entered := parts.level_body l sp (append_nil body).symm parts.continues.complete
  have left : sp + l.amount (.enter frame) + l.amount (.leave frame) = sp := by
    simp only [Link.amount]
    ring
  rw [level, parts.ret_unique split, ← append_assoc, l.level_append]
  change (l.level (sp, 0) (decl.opening frame remarks ++ body)).1 + l.amount (.leave frame) = sp
  rw [entered, left]

end Parts

end Declaration

theorem Context.appended_append (c : Context) (first second : List Instr) :
    (c.appended first).appended second = c.appended (first ++ second) := by
  have code : c.code ++ first ++ second = c.code ++ (first ++ second) := Array.ext' (by simp)
  simp only [appended, code]

theorem Context.pushed_eq_appended (c : Context) (i : Instr) : c.pushed i = c.appended [i] := rfl

theorem Gen.outcome_emitExternalCall (handle : Word) (floatResult : Bool) (dst : Register)
    (loaded : List (Register × Word)) (c : Context) :
    outcome (emitExternalCall handle floatResult dst loaded) c = (.ok (),
      { c.appended (handsOver handle floatResult loaded ++ [.callExternal dst]) with
        statistics := c.statistics.addCall }) := by
  have pushes (d : Context) :
      outcome (forIn loaded PUnit.unit fun (argument : Register × Word) _ => do
      emit (.push argument.1)
      emit (.pushImm argument.2)
      pure (ForInStep.yield PUnit.unit)) d
        = (.ok PUnit.unit,
          d.appended (loaded.flatMap fun argument => [.push argument.1, .pushImm argument.2])) := by
    induction loaded generalizing d with
    | nil => simp [Context.appended]; rfl
    | cons argument rest ih =>
      rw [forIn_cons, outcome_bind]
      refine (ih ((d.pushed (.push argument.1)).pushed (.pushImm argument.2))).trans ?_
      rw [pushed_eq_appended, pushed_eq_appended, appended_append, appended_append]
      rfl
  let c1 := c.appended [.pushImm handle, .pushImm (if floatResult then 1 else 0), .pushImm 0]
  have rest : outcome (emitExternalCall handle floatResult dst loaded) c
      = outcome (forIn loaded PUnit.unit (fun (argument : Register × Word) _ => do
          emit (.push argument.1)
          emit (.pushImm argument.2)
          pure (ForInStep.yield PUnit.unit)) >>= fun _ => do
            emit (.callExternal dst)
            record Statistics.addCall) c1 := rfl
  rw [rest, outcome_bind, pushes, appended_append]
  change (Except.ok (),
    { (c.appended _).pushed (.callExternal dst) with statistics := c.statistics.addCall }) = _
  rw [pushed_eq_appended, appended_append]
  rfl

namespace Declaration

def charter (decl : Declaration) : Charter where
  sees _ _ _ := True
  code := Instr.Continues decl.Stays 0
  refuses _ := True
  code_nil := .nil
  code_append first second := first.append second
  code_plain {i} plain := by
    refine .other ?_ ⟨?_, ?_, fun label jumps => ?_⟩ .nil
    · cases i <;> first | rfl | cases plain
    · cases i <;> first | rfl | cases plain
    · rintro rfl
      cases plain
    · obtain rfl | ⟨r, whenNonzero, rfl⟩ := Instr.jumpsTo?_eq_some jumps <;> cases plain

theorem obeys_emitExternalCall (handle : Word) (floatResult : Bool) (dst : Register)
    (loaded : List (Register × Word)) :
    decl.charter.Obeys (emitExternalCall handle floatResult dst loaded) := by
  have handed : ∀ n, Instr.Continues decl.Stays n
      (loaded.flatMap
        (fun argument => [.push argument.1, .pushImm argument.2]) ++ [.callExternal dst]) := by
    induction loaded with
    | nil => exact fun n => .host .nil
    | cons argument rest ih => exact fun n => .push rfl (.push rfl (ih (n + 2)))
  intro c shown
  rw [outcome_emitExternalCall]
  have code : (c.appended (handsOver handle floatResult loaded ++ [.callExternal dst])).code.toList
      = c.code.toList ++ (handsOver handle floatResult loaded ++ [.callExternal dst]) := by
    simp [Context.appended]
  refine ⟨shown, ⟨_, code, ?_⟩, by rintro _ ⟨⟩⟩
  exact .push rfl (.push rfl (.push rfl (handed 3)))

theorem allows {operation : Operation} (isLast : Bool)
    (reached : ∀ label, operation.goesTo? = some label → label ∈ Operation.labels decl.operations) :
    decl.charter.regime.course.Allows functions decl isLast operation := by
  have fits := decl.charter.regime.course.fits_of_refuses fun _ _ _ => trivial
  have writes {i : Instr} (stays : i.isPush = false ∧ i.isAdjust = false ∧ i ≠ .ret)
      (targets : ∀ label, i.jumpsTo? = some label → decl.Targets label) :
      decl.charter.regime.writes i := .other stays.1 ⟨stays.2.1, stays.2.2, targets⟩ .nil
  have aside {i : Instr} (stays : i.isPush = false ∧ i.isAdjust = false ∧ i ≠ .ret)
      (plain : i.jumpsTo? = none) : decl.charter.regime.writes i := writes stays (by simp [plain])
  cases operation with
  | binary op lhs rhs result inPlace =>
    exact fun _ _ _ _ _ _ _ _ _ _ _ _ _ => aside ⟨rfl, rfl, by simp⟩ rfl
  | convert value result => exact fun _ _ _ _ _ _ _ _ _ => trivial
  | assign target value => exact fun _ _ _ => fits _ _
  | store ptr value => exact fun _ _ _ _ _ => fits _ _
  | call callee args result =>
    cases callee with
    | direct function =>
      refine fun called _ =>
        ⟨fun v ty _ => fits v ty, fun handle _ _ _ floatResult dst loaded => ?_, fun _ => ?_⟩
      · exact obeys_emitExternalCall handle floatResult dst loaded
      · exact aside ⟨rfl, rfl, by simp⟩ rfl
    | indirect ptr =>
      refine ⟨fun r => ?_, fun _ _ _ _ _ v ty _ => fits v ty⟩
      exact aside ⟨rfl, rfl, by simp⟩ rfl
  | label label => exact aside ⟨rfl, rfl, by simp⟩ rfl
  | jump label =>
    refine writes ⟨rfl, rfl, by simp⟩ ?_
    rintro _ ⟨⟩
    exact .inl (reached label rfl)
  | branch cond label jumpIf spillAll =>
    refine fun r => writes ⟨rfl, rfl, by simp⟩ ?_
    rintro _ ⟨⟩
    exact .inl (reached label rfl)
  | ret value =>
    refine ⟨fun v _ => fits v _, fun _ => writes ⟨rfl, rfl, by simp⟩ ?_⟩
    rintro _ ⟨⟩
    exact .inr rfl
  | _ => trivial

end Declaration

namespace Module
variable {rest : List Declaration} {range : Nat × Nat}

theorem range_of_lowerFunction (run : Runs (lowerFunction functions decl) c range c') :
    range = (c.code.size, c'.code.size) := by
  obtain ⟨frame, body, _, _, run⟩ := runs_lowerFunction_parts run
  simp only [lowerParts, lowerTail, instructionCount, enterFrame, runs_bind, runs_get,
    runs_pure, runs_modify, and_assoc, exists_and_left, exists_eq_left] at run
  obtain ⟨_, _, c1, _, _, c2, _, run⟩ := run
  rw [runs_ite_then] at run
  obtain ⟨_, c3, _, run⟩ := run
  simp only [runs_bind, runs_get, runs_pure, runs_record, leaveFrame, runs_modify, and_assoc,
    exists_and_left, exists_eq_left] at run
  obtain ⟨_, c4, _, rfl, _, _, rfl⟩ := run
  rfl

theorem opening_of_lowerPrologue {u : Unit}
    (run : Runs (lowerPrologue decl frame) { c with currentFrame := some frame } u c') :
    ∃ remarks params : List Instr, (∀ i ∈ remarks, i.isRemark = true)
      ∧ c'.code.toList = c.code.toList ++ (decl.opening frame remarks ++ params)
      ∧ Instr.Continues decl.Stays 0 params := by
  simp only [lowerPrologue, runs_bind, runs_emit] at run
  obtain ⟨_, _, rfl, _, _, commented, _, _, rfl, bound⟩ := run
  obtain ⟨remarks, notes, rfl⟩ := runs_comment commented
  let K := decl.charter
  obtain ⟨-, params, code, continues⟩ :=
    Charter.Obeys.of_runs (K := K) (K.regime.holds_bindParameters _) bound fun _ _ _ => trivial
  refine ⟨remarks, params, fun i member => (notes i member).remark, ?_, continues⟩
  rw [code]
  simp [Context.pushed, Context.appended, Declaration.opening]

theorem continues_of_lowerBody {items : List BodyItem}
    {u u' : Unit} {c1 : Context} (is_body : decl.body = some items)
    (reached : ∀ operation ∈ decl.operations, ∀ {label}, operation.goesTo? = some label →
      label ∈ Operation.labels decl.operations)
    (lowered : Runs (lowerBody functions decl items) c u c1)
    (retired : Runs (if !endsWithReturn items then retireRegisters else pure ()) c1 u' c') :
    ∃ added, c'.code.toList = c.code.toList ++ added ∧ Instr.Continues decl.Stays 0 added := by
  let K := decl.charter
  have lowers : K.Obeys (lowerBody functions decl items) := by
    refine (K.sequence.holds_lowerBody fun item member isLast =>
      and_self_iff.mpr (K.regime.holds_lowerUnchecked ?_)).1
    refine Declaration.allows isLast fun label goes => reached item.operation ?_ goes
    rw [operations_of_body is_body]
    exact mem_map_of_mem member
  obtain ⟨-, inner, code, continues⟩ := lowers.of_runs lowered fun _ _ _ => trivial
  have retires : K.Obeys (if !endsWithReturn items then retireRegisters else pure ()) :=
    Charter.obeys_ite K.regime.holds_retireRegisters (Charter.obeys_pure _)
  obtain ⟨_, last, code', continues'⟩ := retires.of_runs retired fun _ _ _ => trivial
  exact ⟨inner ++ last, by rw [code', code, append_assoc], continues.append continues'⟩

theorem Visits.parts (vetted : m.Vetted) (visits : m.Visits (decl :: rest) c)
    (internal : decl.isExternal = false) (run : Runs (lowerFunction m.functions decl) c range c') :
    ∃ frame remarks body code, decl.frame = some frame ∧ c'.code.toList = c.code.toList ++ code
      ∧ decl.Parts frame remarks body code := by
  have piece := Tracing.piece_of_visits (t := m.untraced) vetted visits internal run
  have completes : m.Completes decl.signature decl.operations := by
    obtain ⟨index, bound, is_decl⟩ := mem_iff_getElem.mp (visits.suffix.subset mem_cons_self)
    exact vetted.bodies (f := ⟨index⟩) (by simp [function?, ← is_decl])
  obtain ⟨frame, items, c1, c2, c3, c4, is_frame, is_body, entered, lowered, retired, left, rfl⟩ :=
    runs_lowerFunction_steps run
  obtain ⟨remarks, params, noted, code1, continues1⟩ := opening_of_lowerPrologue entered
  obtain ⟨added, code3, continues3⟩ :=
    continues_of_lowerBody is_body completes.reached lowered retired
  simp only [lowerEpilogue, runs_bind, runs_emit] at left
  obtain ⟨_, _, rfl, _, _, rfl, rfl⟩ := left
  have continues := continues1.append continues3
  have code : c3.code.toList ++ decl.closing frame
      = c.code.toList
        ++ (decl.opening frame remarks ++ (params ++ added ++ decl.closing frame)) := by
    rw [code3, code1]
    simp
  generalize params ++ added = body at code continues
  refine ⟨frame, remarks, body, _, is_frame, ?_, rfl, noted, continues, ?_⟩
  · rw [← code]
    simp [Context.pushed, Declaration.closing]
  · obtain ⟨first, frame', same, _, labels⟩ := piece.code
    have whole : decl.opening frame remarks ++ (body ++ decl.closing frame)
        = first ++ decl.departure frame' ++ [.ret] := by
      refine (append_right_inj c.code.toList).mp ?_
      rw [← code, ← append_assoc, ← same]
      simp [Context.pushed, Declaration.closing]
    have unlabelled : remarks.filterMap Instr.label? = [] := by
      rw [filterMap_eq_nil_iff]
      intro i member
      have remark := noted i member
      cases i <;> first | rfl | cases remark
    have all := congrArg (List.filterMap Instr.label?) whole
    rw [filterMap_append (l := first ++ _), labels] at all
    simpa [Declaration.opening, Declaration.closing, Declaration.labels, unlabelled, Instr.label?,
      filterMap_cons] using all

end Module

structure Declaration.Bracketed (decl : Declaration) (code : List Instr) : Prop where
  begins : code.head? = some (.label decl.start)
  /-- The frame of the function is entered once, left once at the end,
    and then the function returns. -/
  frame : ∃ frame, decl.frame = some frame
    ∧ code.filter Instr.isAdjust = [.stackAdjust (.enter frame), .stackAdjust (.leave frame)]
    ∧ [.label decl.epilogue, .stackAdjust (.leave frame), .ret] <:+ code
  returns : code.filter (· == .ret) = [.ret]
  jumps : ∀ i ∈ code, ∀ label, i.jumpsTo? = some label → .label label ∈ code
  pushes : ∀ before i after, code = before ++ i :: after → i.isPush = true →
    ∃ run dst rest, after = run ++ .callExternal dst :: rest ∧ ∀ j ∈ run, j.isPush = true

theorem Declaration.Parts.bracketed {remarks body code : List Instr}
    (parts : decl.Parts frame remarks body code) (is_frame : decl.frame = some frame) :
    decl.Bracketed code := by
  have remark {i : Instr} (member : i ∈ remarks) : i.isAdjust = false ∧ i ≠ .ret
      ∧ i.jumpsTo? = none := by
    have remark := parts.noted i member
    cases i <;> cases remark <;> exact ⟨rfl, by simp, rfl⟩
  have inner {i : Instr} (member : i ∈ body) : i.isAdjust = false ∧ i ≠ .ret ∧
      ∀ label, i.jumpsTo? = some label → decl.Targets label := by
    obtain pushes | ⟨dst, rfl⟩ | stays := parts.continues.mem_ok member
    · cases i <;> cases pushes <;> exact ⟨rfl, by simp, by simp [Instr.jumpsTo?]⟩
    · exact ⟨rfl, by simp, by simp [Instr.jumpsTo?]⟩
    · exact stays
  have placed {label : LabelId} (targets : decl.Targets label) : .label label ∈ code := by
    rw [parts.code_eq]
    obtain listed | rfl := targets
    · simp [parts.label_mem listed]
    · simp [Declaration.closing]
  constructor
  case begins => rw [parts.code_eq]; rfl
  case frame =>
    have noted : remarks.filter Instr.isAdjust = [] := by
      simpa [filter_eq_nil_iff] using fun i member => (remark member).1
    have unmoved : body.filter Instr.isAdjust = [] := by
      simpa [filter_eq_nil_iff] using fun i member => (inner member).1
    refine ⟨frame, is_frame, ?_, ?_⟩
    · rw [parts.code_eq]
      simp [Declaration.opening, Declaration.closing, noted, unmoved, Instr.isAdjust, filter_cons]
    · rw [parts.code_eq, ← append_assoc]
      exact suffix_append _ _
  case returns =>
    have noted : remarks.filter (· == .ret) = [] := by
      simpa [filter_eq_nil_iff] using fun i member => (remark member).2.1
    have within : body.filter (· == .ret) = [] := by
      simpa [filter_eq_nil_iff] using fun i member => (inner member).2.1
    rw [parts.code_eq]
    simp [Declaration.opening, Declaration.closing, noted, within]
  case jumps =>
    intro i member label jumps
    refine placed ?_
    rw [parts.code_eq, Declaration.opening, Declaration.closing] at member
    simp only [cons_append, mem_cons, mem_append, not_mem_nil, or_false] at member
    obtain rfl | (noted | rfl) | within | rfl | rfl | rfl := member
    · cases jumps
    · cases (remark noted).2.2.symm.trans jumps
    · cases jumps
    · exact (inner within).2.2 label jumps
    all_goals cases jumps
  case pushes =>
    intro before i after split pushes
    have rest := (split ▸ parts.pushes).drop
    generalize Instr.pushesAfter 0 before = n at rest
    cases rest with
    | push _ rest => exact rest.host_of_pos (Nat.succ_pos _)
    | host => cases pushes
    | other stays => cases stays.symm.trans pushes

def Program.code (p : Program) (f : ProgramFunction) : List Instr :=
  (p.instrs.take f.last).drop f.first

namespace ProgramFunction

/-- The functions lie one after the other from `first` up to `last`. -/
def Tile : Nat → List ProgramFunction → Nat → Prop
  | first, [], last => first = last
  | first, f :: rest, last => f.first = first ∧ Tile f.last rest last

/-- The entry of the function says where its code lies. -/
structure Locates (instrs : List Instr) (f : ProgramFunction) (decl : Declaration) : Prop where
  name : f.name = decl.name
  start : f.start = decl.start
  parts : ∃ frame remarks body code outer beyond, decl.frame = some frame
    ∧ decl.Parts frame remarks body code
    ∧ instrs = outer ++ (code ++ beyond) ∧ f.first = outer.length
      ∧ f.last = outer.length + code.length

end ProgramFunction

namespace Module

theorem tile_lowerFunctions (vetted : m.Vetted) (visits : m.Visits decls c)
    {ranges : List (Option (Nat × Nat))}
    (run : Runs (lowerFunctions m.functions decls) c ranges c') :
    ∃ functions added, (decls.zipWith programFunction? ranges).filterMap id = functions
      ∧ c'.code.toList = c.code.toList ++ added
      ∧ ProgramFunction.Tile c.code.size functions c'.code.size
      ∧ List.Forall₂ (ProgramFunction.Locates c'.code.toList) functions
      (decls.filter fun decl => !decl.isExternal) := by
  induction decls generalizing c ranges with
  | nil =>
    obtain ⟨rfl, rfl⟩ := runs_pure.mp run
    exact ⟨[], [], rfl, by simp, rfl, .nil⟩
  | cons decl rest ih =>
    obtain ⟨external, later, rfl, more⟩ | ⟨internal, range, c1, later, rfl, lowered, more⟩ :=
      runs_lowerFunctions_ranges run
    · obtain ⟨functions, added, entries, code, tile, located⟩ := ih (.external visits external) more
      refine ⟨functions, added, ?_, code, tile, ?_⟩
      · simpa [programFunction?] using entries
      · simpa [external] using located
    · obtain ⟨frame, remarks, body, own, is_frame, code1, parts⟩ :=
        visits.parts vetted internal lowered
      obtain rfl := range_of_lowerFunction lowered
      obtain ⟨functions, added, entries, code, tile, located⟩ :=
        ih (.function visits internal lowered) more
      refine ⟨⟨decl.name, decl.start, c.code.size, c1.code.size⟩ :: functions, own ++ added, ?_,
        ?_, ⟨rfl, tile⟩, ?_⟩
      · simpa [programFunction?] using entries
      · rw [code, code1, append_assoc]
      · rw [filter_cons_of_pos (by simp [internal])]
        refine .cons ⟨rfl, rfl, frame, remarks, body, own, c.code.toList, added, is_frame, parts,
          ?_, ?_, ?_⟩ located
        · rw [code, code1, append_assoc]
        · exact Array.length_toList.symm
        · rw [← length_append, ← code1, Array.length_toList]

def stub (m : Module) : List Instr :=
  (m.entry.bind m.function?).elim [] fun decl => [.stackAdjust .statics, .call decl.start, .halt]

theorem code_eq_stub (run : Runs (lowerEntry m.functions m.entry) m.context () c) :
    c.code.toList = m.stub := by
  obtain ⟨no_entry, rfl⟩ | ⟨f, decl, is_entry, known, rfl⟩ := code_of_lowerEntry run
  · simp [stub, no_entry, Module.context]
  · simp [stub, is_entry, function?, known, Module.context, Context.pushed]

/-- The functions of a finished module lie one after the other behind the call of the entry, and
each is well bracketed. So the stack pointer is at the return of a function where it was at its
start. -/
theorem finished_bracketed {options : Options} {file : String} {calls : List ModuleCall}
    {program : Program} (finished : (build options file calls).finish = .ok program) :
    (build options file calls).stub <+: program.instrs
      ∧ ProgramFunction.Tile
      (build options file calls).stub.length program.functions program.instrs.length
      ∧ List.Forall₂
      (fun f decl => f.name = decl.name ∧ f.start = decl.start ∧ decl.Bracketed (program.code f))
        program.functions
        ((build options file calls).functions.toList.filter fun decl => !decl.isExternal)
      ∧ ∀ image, program.assemble = .ok image → ∀ f ∈ program.functions, ∀ (hw : Hardware)
      (l : Link) (q q' : Processor),
        q.pc = f.first → Relation.ReflTransGen (Processor.Passes hw l program.instrs) q q' →
          f.first ≤ q'.pc ∧ q'.pc < f.last
          ∧ (program.instrs[q'.pc]? = some .ret → q'.sp = q.sp) := by
  set m := build options file calls
  have vetted : m.Vetted := vetted_build options file calls
  obtain ⟨ranges, c, run, instrs, -, -, is_functions⟩ := lowered_of_finish finished
  simp only [lowerModule, runs_bind] at run
  obtain ⟨_, c₀, entered, run⟩ := run
  obtain ⟨functions, added, entries, code, tile, located⟩ :=
    tile_lowerFunctions vetted (.entry entered) run
  have is_stub := code_eq_stub entered
  rw [entries] at is_functions
  rw [← is_functions, ← instrs] at located
  refine ⟨?_, ?_, ?_, ?_⟩
  · rw [instrs, code, is_stub]
    exact List.prefix_append _ _
  · rw [is_functions, instrs, ← is_stub, Array.length_toList, Array.length_toList]
    exact tile
  · refine located.imp fun f decl locates => ⟨locates.name, locates.start, ?_⟩
    obtain ⟨frame, remarks, body, own, outer, beyond, is_frame, parts, whole, first, last⟩ :=
      locates.parts
    have own_code : program.code f = own := by
      rw [Program.code, whole, first, last, ← List.length_append, ← List.append_assoc,
        List.take_left, List.drop_left]
    rw [own_code]
    exact parts.bracketed is_frame
  · intro image assembled f member hw l q q' begins path
    have distinct := nodup_of_assemble assembled
    obtain ⟨index, small, rfl⟩ := List.mem_iff_getElem.mp member
    have locates := located.get small (located.length_eq ▸ small)
    obtain ⟨frame, remarks, body, own, outer, beyond, -, parts, whole, first, last⟩ := locates.parts
    simp only [List.get_eq_getElem] at first last
    have balances := parts.balances_path whole distinct (begins.trans first) path
    refine ⟨?_, ?_, fun returns => parts.sp_of_ret whole balances returns⟩
    · obtain ⟨done, todo, -, -, here, -⟩ := balances
      rw [first, here]
      exact Nat.le_add_right _ _
    · obtain ⟨done, todo, split, unfinished, here, -⟩ := balances
      have := List.length_pos_of_ne_nil unfinished
      rw [last, here, split, List.length_append]
      omega

def greetModule : Module := build { emitLocations := false } "greet.c"
  [.declare "put" ⟨[.i64], .void⟩ (.external 7) 1, .declare "main" ⟨[], .void⟩ .internal 2,
    .define ⟨1⟩ [] 3 [.constant .i64 5, .call ⟨0⟩ [⟨0⟩], .ret none] true, .setEntry ⟨1⟩ 4]

def greetCode : List Instr :=
  [.stackAdjust .statics, .call ⟨2⟩, .halt, .label ⟨2⟩, .stackAdjust (.enter ⟨0⟩),
    .movImm (.int 0) (.value 5), .pushImm 7, .pushImm 0, .pushImm 0, .push (.int 0), .pushImm 1,
      .callExternal (.int 0),
    .label ⟨3⟩, .stackAdjust (.leave ⟨0⟩), .ret]

theorem greet_path (hw : Hardware) (l : Link) (s : MachineState) (sp : Word) : ∃ q : Processor,
    Relation.ReflTransGen (Processor.Passes hw l greetCode) ⟨s, sp, 3⟩ q
    ∧ greetCode[q.pc]? = some .ret := by
  have host (q : Processor) (here : q.pc = 11) :
      Processor.Passes hw l greetCode q ⟨q.state, q.sp - 8 * BitVec.ofNat 64 5, 12⟩ := by
    have calls : greetCode[q.pc]? = some (.callExternal (.int 0)) := by
      rw [here]
      rfl
    refine .host calls ?_ ?_
    · rw [here]
    · rw [here]
      rfl
  refine ⟨_, .head (.inner rfl) <| .head (.inner rfl) <| .head
    (.inner rfl) <| .head (.pushImm rfl) <| .head (.pushImm rfl) <| .head (.pushImm rfl) <| .head
      (.push rfl) <| .head (.pushImm rfl) <|
    .head (host _ rfl) <| .head (.inner rfl) <| .head (.inner rfl) .refl, rfl⟩

/-- The path on which five words are pushed for the host. -/
theorem finished_bracketed_greet :
    ∃ program image, greetModule.finish = .ok program ∧ program.assemble = .ok image
      ∧ program.functions = [⟨"main", ⟨2⟩, 3, 15⟩]
      ∧ ∀ (hw : Hardware) (l : Link) (s : MachineState) (sp : Word), ∃ q : Processor,
        Relation.ReflTransGen (Processor.Passes hw l program.instrs) ⟨s, sp, 3⟩ q
          ∧ program.instrs[q.pc]? = some .ret ∧ q.sp = sp := by
  obtain ⟨program, image, finished, assembled, instrs, functions⟩ :=
    exists_image (m := greetModule) (P := fun program =>
      program.instrs = greetCode ∧ program.functions = [⟨"main", ⟨2⟩, 3, 15⟩]) (by decide +kernel)
  obtain ⟨-, -, -, restored⟩ := finished_bracketed finished
  refine ⟨program, image, finished, assembled, functions, fun hw l s sp => ?_⟩
  obtain ⟨q, path, returns⟩ := greet_path hw l s sp
  rw [← instrs] at path returns
  have member : (⟨"main", ⟨2⟩, 3, 15⟩ : ProgramFunction) ∈ program.functions := by simp [functions]
  exact ⟨q, path, returns, (restored image assembled _ member hw l _ q rfl path).2.2 returns⟩

end Module

end RegisterBackend
