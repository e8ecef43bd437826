import RegisterBackend.Proofs.Verification

/-!
What lowering does with the uses that are counted for each value. A step *spends* a list of values
when it takes exactly these uses off the counts.
-/
namespace RegisterBackend

open RegisterFile Discipline ValueStore Option

variable {c : Context} {m : Manner} {more used : List ValueId} {v : ValueId}
  {value : Value} {α β ι : Type} {f : Value → Value} {fault : Fault} {r : Register}

def ValueStore.references (s : ValueStore) (v : ValueId) : Nat :=
  ((s.get? v).map Value.references).getD 0

theorem ValueStore.references_eq {s : ValueStore} (found : s.get? v = some value) :
    s.references v = value.references := by
  simp [references, found]

namespace Value

theorem isDead_iff {v : Value} : v.isDead = true ↔ v.isNamed = false ∧ v.references = 0 := by
  simp [isDead]

structure Spent (m : Manner) (n : Nat) (old new : Value) : Prop where
  unnamed : new.isUnnamed = old.isUnnamed
  counted : old.references = new.references + n
  kept : m ≠ .parting → old.isUnnamed = true → 0 < new.references → old.position.isSome = true →
    new.position.isSome = true

namespace Spent
variable {n k : Nat} {mid new : Value}

theorem refl (m : Manner) (value : Value) : value.Spent m 0 value := ⟨rfl, rfl, fun _ _ _ => id⟩

theorem trans (first : value.Spent m n mid) (second : mid.Spent m k new) :
    value.Spent m (n + k) new where
  unnamed := second.unnamed.trans first.unnamed
  counted := by rw [first.counted, second.counted, Nat.add_assoc, Nat.add_comm k n]
  kept lasting is_unnamed left here := by
    have some_left : 0 < mid.references := second.counted ▸ Nat.add_pos_left left k
    exact second.kept lasting
      (first.unnamed.trans is_unnamed) left (first.kept lasting is_unnamed some_left here)

theorem moved (place : Position) : value.Spent m 0 { value with position := some place } :=
  ⟨rfl, rfl, fun _ _ _ _ => rfl⟩

theorem dirtied (value : Value) (dirty : Bool) : value.Spent m 0 (value.setDirty dirty) := by
  refine ⟨?_, ?_, fun _ _ _ here => ?_⟩ <;> cases h :
    value.kind <;> simp_all [setDirty, mapNamed, isUnnamed]

theorem escaped (value : Value) : value.Spent m 0 (value.setEscaped true) := by
  refine ⟨?_, ?_, fun _ _ _ here => ?_⟩ <;> cases h :
    value.kind <;> simp_all [setEscaped, mapNamed, isUnnamed]

end Spent

end Value

namespace Context

theorem Owned.aside {c' : Context} (owned : c.Owned) (same : c.Aside c') : c'.Owned := by
  refine ⟨fun found' pos => ?_, fun found' is_home => ?_⟩
  · obtain ⟨value, found, _, _, at_place, _⟩ := same.before found'
    rw [same.occupant]
    exact owned.owned found (at_place.trans pos)
  · obtain ⟨value, found, _, _, _, homed⟩ := same.before found'
    exact owned.settled found (homed.trans is_home)

def Buries (c : Context) (v : ValueId) : Prop :=
  ∃ value, c.values.get? v = some value ∧ value.isDead = true

structure Spent (m : Manner) (used : List ValueId) (c c' : Context) : Prop where
  found : ∀ {v value}, c.values.get? v = some value →
    ∃ value', c'.values.get? v = some value' ∧ value.Spent m (used.count v) value'
  unknown : ∀ {v}, c.values.get? v = none → c'.values.get? v = none
  emptied : m = .careful false → ∀ {r v}, c'.registers.occupant? r = some v →
    c.registers.occupant? r = some v

end Context

def Discipline.owned : Discipline where
  holds := Context.Owned
  aside owned same := owned.aside same
  seat {c r v value} owned _ found _ _ range empty := by
    refine owned.modify found rfl (fun is_home => owned.settled found is_home) (fun pos => ?_)
      fun other occupied => ?_
    · cases pos
      simp [occupant?_setOccupant, range]
    · rw [occupant?_setOccupant _ _ _ range, if_neg]
      · exact occupied
      · rintro rfl
        simp [empty] at occupied
  unseat {c r v value} owned found occupied pos := by
    have range := inRange_of_occupant? occupied
    refine owned.modify found rfl (fun is_home => owned.settled found is_home) (fun is_home => ?_)
      fun other held => ?_
    · cases owned.settled found is_home
    · rw [occupant?_setOccupant _ _ _ range, if_neg]
      · exact held
      · rintro rfl
        exact other (mem_unique held occupied)
  spill {c c1 r v w value slot size} owned found _ occupied own hands := by
    have range := inRange_of_occupant? occupied
    obtain rfl : w = v := own.elim id fun pos =>
      mem_unique occupied (owned.owned found pos)
    have owned1 : c1.Owned := owned.aside hands.aside
    have found1 : c1.values.get? w = some value := hands.values ▸ found
    have occupied1 : c1.registers.occupant? r = some w := (hands.aside.occupant r).trans occupied
    refine owned1.modify found1 rfl (fun is_home => owned1.settled found1 is_home) nofun
      fun other held => ?_
    rw [occupant?_setOccupant _ _ _ range, if_neg]
    · exact held
    · rintro rfl
      exact other (mem_unique held occupied1)
  move {c v source target} owned occupied range range' _ empty := by
    have others {w : ValueId} {r : Register} (other : w ≠ v)
        (held : c.registers.occupant? r = some w) :
        ((c.registers.setOccupant source none).setOccupant target (some v)).occupant? r
          = some w := by
      have not_source : r ≠ source := by
        rintro rfl
        exact other (mem_unique held occupied)
      have still : (c.registers.setOccupant source none).occupant? r = some w := by
        rwa [occupant?_setOccupant _ _ _ range, if_neg not_source]
      rw [occupant?_setOccupant _ _ _ range', if_neg]
      · exact still
      · rintro rfl
        simp [empty] at still
    cases found : c.values.get? v with
    | some value =>
      refine owned.modify found rfl (fun is_home => owned.settled found is_home)
        (fun pos => ?_) others
      cases pos
      simp [occupant?_setOccupant, range']
    | none =>
      have same (w : ValueId) :
          (c.values.modify v ({ · with position := some (.register target) })).get? w
          = c.values.get? w := by
        rw [get?_modify]
        split
        · next same => simp [same, found]
        · rfl
      refine ⟨fun {w value r} found' pos => ?_, fun found' is_home => ?_⟩
      · have known := (same w).symm.trans found'
        refine others ?_ (owned.owned known pos)
        rintro rfl
        simp [found] at known
      · exact owned.settled ((same _).symm.trans found') is_home
  rehome {c v value home} owned found is_home _ := by
    refine owned.modify found rfl (fun is_home => owned.settled found is_home) (fun pos => ?_)
      fun _ held => held
    cases pos
    cases owned.settled found is_home
  grant {c c1 v value named home} owned found is_named fresh memory hands := by
    have owned1 : c1.Owned := owned.aside hands.aside
    have found1 : c1.values.get? v = some value := hands.values ▸ found
    cases h : value.kind <;> simp only [Value.named?, h] at is_named <;> cases is_named
    refine owned1.modify found1 rfl (fun is_home => ?_) (fun pos => ?_) fun _ held => held
    · simp only [Value.mapNamed, h, Value.home?, Value.named?, bind_some,
        Option.some.injEq] at is_home
      exact is_home ▸ memory
    · simp only [Value.mapNamed, h] at pos
      exact owned1.owned found1 pos
  emit owned _ _ := ⟨owned.owned, owned.settled⟩
  remark owned _ := ⟨owned.owned, owned.settled⟩

namespace Context.Spent
variable {c1 c' : Context} {value' : Value}

theorem of_values (values : c'.values = c.values)
    (registers : ∀ r, c'.registers.occupant? r = c.registers.occupant? r) : c.Spent m [] c' where
  found found := ⟨_, values ▸ found, .refl _ _⟩
  unknown missing := values ▸ missing
  emptied _ {r v} := by rw [registers]; exact id

theorem refl (m : Manner) (c : Context) : c.Spent m [] c := of_values rfl fun _ => rfl

theorem trans (first : c.Spent m used c1) (second : c1.Spent m more c') :
    c.Spent m (used ++ more) c' where
  found found := by
    obtain ⟨value1, found1, spent1⟩ := first.found found
    obtain ⟨value', found', spent'⟩ := second.found found1
    rw [List.count_append]
    exact ⟨value', found', spent1.trans spent'⟩
  unknown missing := second.unknown (first.unknown missing)
  emptied quiet _ _ occupied := first.emptied quiet (second.emptied quiet occupied)

theorem parting (spent : c.Spent m used c') : c.Spent .parting used c' where
  found found := by
    obtain ⟨value', found', spent'⟩ := spent.found found
    exact ⟨value', found', spent'.unnamed, spent'.counted, fun lasting => (lasting rfl).elim⟩
  unknown := spent.unknown
  emptied := nofun

theorem of_recedes {gone : Register → Prop} (recedes : Recedes gone c c') : c.Spent m [] c' where
  found found := by
    obtain ⟨value', found', ages⟩ := recedes.leads.values found
    have same := (recedes.remains found found').1
    exact ⟨value', found', Value.isUnnamed_eq_of_nature ages.nature, same.symm,
      fun _ unnamed left => recedes.keeps found found' unnamed (same ▸ left)⟩
  unknown := recedes.leads.unknown
  emptied _ := recedes.shrinks

section
variable (known : c.values.get? v = some value)
include known

theorem change (changed : ∀ w, c'.values.get? w = if w = v then some value' else c.values.get? w)
    (spent : value.Spent m 0 value')
    (emptied : m = .careful false → ∀ {r w}, c'.registers.occupant? r = some w →
      c.registers.occupant? r = some w) : c.Spent m [] c' where
  found {w _} found := by
    rw [changed]
    by_cases same : w = v
    · subst same
      obtain rfl := mem_unique known found
      exact ⟨value', if_pos rfl, spent⟩
    · exact ⟨_, by rw [if_neg same, found], .refl _ _⟩
  unknown {w} missing := by
    rw [changed, if_neg, missing]
    rintro rfl
    cases missing.symm.trans known
  emptied := emptied

theorem modify (values : c'.values = c.values.modify v f) (spent : value.Spent m 0 (f value))
    (emptied : m = .careful false → ∀ {r w}, c'.registers.occupant? r = some w →
      c.registers.occupant? r = some w) : c.Spent m [] c' :=
  change known (fun w => by rw [values, get?_modify, known, map_some]) spent emptied

theorem seated
    (values : c'.values = (c.values.modify v ({ · with position := some (.register r) })).touch v)
    (binds : m ≠ .careful false) : c.Spent m [] c' := by
  have seated : value.Spent m 0
      { value with position := some (.register r), lastTouched := c.values.clock + 1 } :=
    ⟨rfl, rfl, fun _ _ _ _ => rfl⟩
  refine change known (fun w => ?_) seated fun quiet => (binds quiet).elim
  rw [values, get?_touch, get?_modify, get?_modify, if_pos rfl, known]
  by_cases same : w = v
  · rw [if_pos same, if_pos same]
    rfl
  · rw [if_neg same, if_neg same, if_neg same]

end

theorem references (spent : c.Spent m used c') (enough : used.count v ≤ c.values.references v) :
    c.values.references v = c'.values.references v + used.count v := by
  cases before : c.values.get? v with
  | none =>
    simp only [ValueStore.references, before, spent.unknown before, map_none,
      getD_none] at enough ⊢
    omega
  | some value =>
    obtain ⟨value', found', spent'⟩ := spent.found before
    rw [references_eq before, references_eq found', spent'.counted]

end Context.Spent

namespace Fault

def isUnderflow : Fault → Bool
  | .failed (.inconsistent (.referenceUnderflow _ _)) => true
  | _ => false

theorem isUnderflow_of_isRoutine (routine : fault.isRoutine = true) :
    fault.isUnderflow = false := by
  unfold isRoutine at routine
  split at routine <;> simp_all [isUnderflow]

end Fault

namespace Gen

def Mild (x : Gen α) : Prop :=
  ∀ ⦃c fault c'⦄, outcome x c = (.error fault, c') → fault.isUnderflow = false

section
variable {x : Gen α} {f : α → Gen β}

theorem mild_pure (a : α) : Mild (pure a : Gen α) := by
  intro c fault c' stopped
  cases stopped

theorem mild_throw (mild : fault.isUnderflow = false) : Mild (throw fault : Gen α) := by
  intro c _ c' stopped
  cases stopped
  exact mild

theorem mild_modify (f : Context → Context) : Mild (modify f : Gen Unit) := by
  intro c fault c' stopped
  cases stopped

theorem mild_bind (first : Mild x) (rest : ∀ a, Mild (f a)) : Mild (x >>= f) := by
  intro c fault c' stopped
  rw [outcome_bind] at stopped
  rcases ended : outcome x c with ⟨stop | a, c1⟩ <;> rw [ended] at stopped
  · cases stopped
    exact first ended
  · exact rest a stopped

theorem mild_get {f : Context → Gen β} (rest : ∀ c, Mild (f c)) : Mild (get >>= f) :=
  mild_bind (fun _ _ _ stopped => by cases stopped) rest

theorem mild_valueOf (v : ValueId) : Mild (valueOf v) := by
  refine mild_get fun c => ?_
  cases c.values.get? v with
  | none => exact mild_throw rfl
  | some value => exact mild_pure _

theorem mild_markLocation (v : ValueId) : Mild (markLocation v) := by
  refine mild_get fun c => ?_
  split
  · refine mild_bind (mild_valueOf v) fun value => ?_
    split
    · exact mild_modify _
    · exact mild_pure _
  · exact mild_pure _

end

def mildly : Closure where
  holds := Mild
  sees _ _ _ := True
  writes _ := True
  stops fault := fault.isUnderflow = false
  writes_plain _ := trivial
  stops_routine := Fault.isUnderflow_of_isRoutine
  holds_pure := mild_pure
  holds_throw := mild_throw
  holds_bind := mild_bind
  holds_holding inner _ _ _ stopped := by
    obtain ⟨fails, _⟩ := Prod.mk.inj stopped
    exact inner (Prod.ext fails rfl)
  holds_get _ rest := mild_get fun c => rest c fun _ _ _ => trivial
  holds_modify _ _ _ _ := mild_modify _
  holds_exchange _ rest := mild_get fun c => by
    rcases rest c with step | ⟨_, _, _, exchange⟩
    · exact step
    · rw [exchange]
      exact mild_bind (mild_modify _) fun _ => mild_pure _
  holds_emit _ := mild_modify _
  holds_comment _ := mild_get fun _ => by
    split
    · exact mild_modify _
    · exact mild_pure _
  holds_mark step _ := mild_bind step fun _ => mild_markLocation _
  holds_addRegister := mild_modify _
  holds_addSpill := mild_modify _
  holds_addCall := mild_modify _
  holds_addOperation _ := mild_modify _

end Gen

namespace Gen

/-- The step, started in `c`, spends the uses `used`. If these are counted, it misses none. -/
def Spends {α : Type} (m : Manner) (c : Context) (used : List ValueId) (x : Gen α) : Prop :=
  c.Owned → (∀ {a c'}, Runs x c a c' → c'.Owned ∧ c.Spent m used c')
    ∧ ((∀ v, used.count v ≤ c.values.references v) →
      ∀ {fault c'}, outcome x c = (.error fault, c') → fault.isUnderflow = false)

section
variable {x y : Gen α} {f : α → Gen β}

theorem spends_of_owned (step : c.Owned → Spends m c used x) : Spends m c used x :=
  fun owned => step owned owned

theorem Spends.of_outcome (same : outcome y c = outcome x c) (spends : Spends m c used x) :
    Spends m c used y := by
  unfold Spends Runs
  rw [same]
  exact spends

theorem Spends.perm (spends : Spends m c used x) (perm : used.Perm more) : Spends m c more x := by
  intro owned
  obtain ⟨ran, stopped⟩ := spends owned
  refine ⟨fun run => ?_, fun enough => stopped fun v => perm.count_eq v ▸ enough v⟩
  obtain ⟨owned, spent⟩ := ran run
  exact ⟨owned, { spent with found := fun {v _} found => perm.count_eq v ▸ spent.found found }⟩

theorem Spends.parting (spends : Spends m c used x) : Spends .parting c used x := by
  intro owned
  obtain ⟨ran, stopped⟩ := spends owned
  refine ⟨fun run => ?_, stopped⟩
  obtain ⟨owned, spent⟩ := ran run
  exact ⟨owned, spent.parting⟩

theorem spends_pure (a : α) : Spends m c [] (pure a : Gen α) := by
  refine fun owned => ⟨fun run => ?_, fun _ _ _ stopped => by cases stopped⟩
  obtain ⟨_, rfl⟩ := runs_pure.mp run
  exact ⟨owned, .refl m _⟩

theorem spends_throw (mild : fault.isUnderflow = false) :
    Spends m c used (throw fault : Gen α) := by
  refine fun _ => ⟨fun run => (runs_throw.mp run).elim, fun _ _ _ stopped => ?_⟩
  cases stopped
  exact mild

theorem spends_throw_then (mild : fault.isUnderflow = false) :
    Spends m c used ((throw fault : Gen α) >>= f) :=
  (spends_throw mild : Spends m c used (throw fault : Gen β)).of_outcome rfl

theorem spends_bind (first : Spends m c used x)
    (rest : ∀ {a c1}, Runs x c a c1 → c1.Owned → c.Spent m used c1 → Spends m c1 more (f a)) :
    Spends m c (used ++ more) (x >>= f) := by
  intro owned
  obtain ⟨ran, stopped⟩ := first owned
  refine ⟨fun run => ?_, fun enough fault c' fails => ?_⟩
  · obtain ⟨a, c1, run1, run2⟩ := runs_bind.mp run
    obtain ⟨owned1, spent1⟩ := ran run1
    obtain ⟨owned2, spent2⟩ := (rest run1 owned1 spent1 owned1).1 run2
    exact ⟨owned2, spent1.trans spent2⟩
  · simp only [List.count_append] at enough
    rw [outcome_bind] at fails
    rcases ended : outcome x c with ⟨stop | a, c1⟩ <;> rw [ended] at fails
    · cases fails
      exact stopped (fun v => (Nat.le_add_right _ _).trans (enough v)) ended
    · obtain ⟨owned1, spent1⟩ := ran ended
      refine (rest ended owned1 spent1 owned1).2 (fun v => ?_) fails
      have both := enough v
      have balance := spent1.references (v := v) (by omega)
      omega

theorem spends_after (first : Spends m c [] x)
    (rest : ∀ {a c1}, Runs x c a c1 → c1.Owned → c.Spent m [] c1 → Spends m c1 used (f a)) :
    Spends m c used (x >>= f) := spends_bind first rest

theorem spends_before (first : Spends m c used x)
    (rest : ∀ {a c1}, Runs x c a c1 → c1.Owned → c.Spent m used c1 → Spends m c1 [] (f a)) :
    Spends m c used (x >>= f) := List.append_nil used ▸ spends_bind first rest

theorem spends_then (first : Spends m c used x) (rest : ∀ {a c1}, Spends m c1 more (f a)) :
    Spends m c (used ++ more) (x >>= f) := spends_bind first fun _ _ _ => rest

theorem spends_seq (first : Spends m c [] x) (rest : ∀ {a c1}, Spends m c1 used (f a)) :
    Spends m c used (x >>= f) := spends_then first rest

theorem spends_first (first : Spends m c used x) (rest : ∀ {a c1}, Spends m c1 [] (f a)) :
    Spends m c used (x >>= f) := spends_before first fun _ _ _ => rest

theorem spends_look (mild : Mild x) (look : ∀ {a c'}, Runs x c a c' → c' = c)
    (rest : ∀ {a}, Runs x c a c → Spends m c used (f a)) : Spends m c used (x >>= f) := by
  have still : Spends m c [] x := by
    refine fun owned => ⟨fun run => ?_, fun _ _ _ stopped => mild stopped⟩
    rw [look run]
    exact ⟨owned, .refl _ _⟩
  refine spends_bind still fun {a c1} run _ _ => ?_
  obtain rfl := look run
  exact rest run

theorem spends_get {f : Context → Gen β} (rest : Spends m c used (f c)) :
    Spends m c used (get >>= f) := rest

theorem spends_valueOf {f : Value → Gen β}
    (rest : ∀ {value}, c.values.get? v = some value → Spends m c used (f value)) :
    Spends m c used (valueOf v >>= f) :=
  spends_look (mild_valueOf v) (fun run => (runs_valueOf.mp run).2) fun run =>
    rest (runs_valueOf.mp run).1

theorem spends_occupantOf {f : Option ValueId → Gen β}
    (rest : Spends m c used (f (c.registers.occupant? r))) : Spends m c used (occupantOf r >>= f) :=
  spends_look (mildly.holds_occupantOf r) (fun run => (runs_occupantOf.mp run).2.2) fun run =>
    (runs_occupantOf.mp run).2.1 ▸ rest

theorem spends_discard (step : Spends m c used x) : Spends m c used (discard x) :=
  spends_first step (spends_pure _)

theorem spends_ite {p : Prop} [Decidable p] (yes : p → Spends m c used x)
    (no : ¬p → Spends m c used y) : Spends m c used (if p then x else y) := by
  by_cases h : p
  · simpa [h] using yes h
  · simpa [h] using no h

theorem spends_when {p : Prop} [Decidable p] {x : Gen Unit} {f : Unit → Gen β}
    (first : p → Spends m c [] x) (rest : ∀ {c1}, Spends m c1 used (f ())) :
    Spends m c used (if p then x >>= f else f ()) :=
  spends_ite (fun h => spends_seq (first h) rest) fun _ => rest

theorem spends_forIn {f : ι → PUnit → Gen (ForInStep PUnit)} {xs : List ι}
    (round : ∀ x u c, Spends m c [] (f x u)) (u : PUnit) : Spends m c [] (forIn xs u f) :=
  forIn_rule (P := (Spends m · [])) (fun _ _ => spends_pure _)
    (fun c x u _ rest => spends_seq (round x u c) (rest _ _)) xs c u

theorem spends_holding (inner : Spends m (c.withLock r true) used x) :
    Spends m c used (holding r x) := by
  intro owned
  obtain ⟨ran, stopped⟩ := inner (holds_withLock (D := .owned) owned r true)
  refine ⟨fun run => ?_, fun enough fault c' fails => ?_⟩
  · obtain ⟨c1, block, rfl⟩ := runs_holding.mp run
    obtain ⟨owned1, spent⟩ := ran block
    refine ⟨holds_withLock (D := .owned) owned1 r _, spent.found, spent.unknown,
      fun quiet {q v} occupied => ?_⟩
    simp only [Context.withLock, occupant?_setLocked] at occupied
    simpa [Context.withLock] using spent.emptied quiet occupied
  · have unfolded : outcome (holding r x) c = ((outcome x (c.withLock r true)).1,
        (outcome x (c.withLock r true)).2.withLock r (c.registers.isLocked r)) := rfl
    rw [unfolded, Prod.mk.injEq] at fails
    exact stopped enough (Prod.ext fails.1 rfl)

end

theorem spends_of_runs {x : Gen α} (walks : Discipline.owned.Walks c x) (mild : Mild x)
    (spent : ∀ {a c'}, Runs x c a c' → c.Spent m used c') : Spends m c used x :=
  fun owned => ⟨fun run => ⟨(walks _ _ owned run).1, spent run⟩, fun _ _ _ stopped => mild stopped⟩

theorem spends_still {x : Gen α} (mild : Mild x)
    (still : ∀ {a c'}, Runs x c a c' → c'.values = c.values
    ∧ ∀ r, c'.registers.occupant? r = c.registers.occupant? r) : Spends m c [] x := by
  refine fun owned => ⟨fun run => ?_, fun _ _ _ stopped => mild stopped⟩
  obtain ⟨values, registers⟩ := still run
  refine ⟨⟨fun found pos => ?_, fun found is_home => ?_⟩, .of_values values registers⟩
  · rw [registers]
    exact owned.owned (values ▸ found) pos
  · exact owned.settled (values ▸ found) is_home

theorem spends_emit (i : Instr) : Spends m c [] (emit i) :=
  spends_still (mild_modify _) fun run => by rw [runs_emit.mp run]; exact ⟨rfl, fun _ => rfl⟩

theorem spends_record (f : Statistics → Statistics) : Spends m c [] (record f) :=
  spends_still (mild_modify _) fun run => by rw [runs_record.mp run]; exact ⟨rfl, fun _ => rfl⟩

theorem spends_setLocation (loc : Location) : Spends m c [] (setLocation loc) :=
  spends_still (mild_modify _) fun run => by rw [runs_setLocation.mp run]; exact ⟨rfl, fun _ => rfl⟩

theorem spends_comment (text : String) : Spends m c [] (comment text) :=
  spends_still (mildly.holds_comment text) fun run => by
    obtain ⟨_, _, rfl⟩ := runs_comment run
    exact ⟨rfl, fun _ => rfl⟩

theorem spends_markLocation (v : ValueId) : Spends m c [] (markLocation v) :=
  spends_still (mild_markLocation v) fun run => by
    obtain ⟨_, _, rfl⟩ := runs_markLocation run
    exact ⟨rfl, fun _ => rfl⟩

theorem spends_allocateSlot (size : Nat) : Spends m c [] (allocateSlot size) :=
  spends_still (mildly.holds_allocateSlot size) fun run =>
    ⟨(runs_allocateSlot run).values, (runs_allocateSlot run).aside.occupant⟩

theorem spends_loadAddress (dst : Register) (pos : Position) :
    Spends m c [] (loadAddress dst pos) := by
  cases pos with
  | register r => exact spends_throw rfl
  | stack slot => exact spends_emit _
  | static offset | constant id => exact spends_seq (spends_emit _) (spends_emit _)

theorem spends_touch (v : ValueId) : Spends m c [] (touch v) := by
  refine spends_of_runs (walks_touch v) (mildly.holds_touch v) fun run => ?_
  obtain ⟨⟨value, found⟩, rfl⟩ := runs_touch.mp run
  have touched (w : ValueId) : (c.values.touch v).get? w
      = if w = v then some { value with lastTouched := c.values.clock + 1 }
        else c.values.get? w := by
    rw [get?_touch, found]
    rfl
  exact .change found touched ⟨rfl, rfl, fun _ _ _ => id⟩ fun _ => id

theorem spends_consume (v : ValueId) : Spends m c [v] (consume v) := by
  refine fun owned => ⟨fun run => ⟨(walks_consume (D := .owned) v _ _ owned run).1, ?_⟩,
    fun enough fault c' stopped => ?_⟩
  · obtain ⟨value, known, references, rfl⟩ := runs_consume run
    refine ⟨fun {w old} found => ?_, fun {w} missing => ?_, fun _ => id⟩
    · rw [get?_modify]
      by_cases same : w = v
      · subst same
        obtain rfl := mem_unique known found
        rw [if_pos rfl, known, List.count_singleton_self]
        exact ⟨_, rfl, rfl, references, fun _ _ _ => id⟩
      · rw [if_neg same, List.count_singleton, if_neg (by simpa using Ne.symm same)]
        exact ⟨old, found, .refl _ _⟩
    · rw [get?_modify, if_neg, missing]
      rintro rfl
      cases missing.symm.trans known
  · have counted := enough v
    rw [List.count_singleton_self] at counted
    cases found : c.values.get? v with
    | none => simp [ValueStore.references, found] at counted
    | some value =>
      rw [references_eq found] at counted
      obtain ⟨left, some_left⟩ := Nat.exists_eq_add_of_le' counted
      rw [consume, outcome_get] at stopped
      simp only [ValueStore.consume, found, some_left] at stopped
      cases stopped

theorem spends_update (walks : Discipline.owned.Walks c (updateValue v f))
    (spent : ∀ value : Value, value.Spent m 0 (f value)) : Spends m c [] (updateValue v f) := by
  refine spends_of_runs walks
    (mild_bind (mildly.holds_discard (mild_valueOf v)) fun _ => mild_modify _) fun run => ?_
  obtain ⟨⟨value, found⟩, rfl⟩ := runs_updateValue.mp run
  exact .modify found rfl (spent value) fun _ => id

theorem spends_setDirty (v : ValueId) (dirty : Bool) :
    Spends m c [] (updateValue v (·.setDirty dirty)) :=
  spends_update (walks_setDirty v dirty) fun value => .dirtied value dirty

theorem spends_markDirty (v : ValueId) : Spends m c [] (markDirty v) :=
  spends_seq (spends_setDirty v true) (spends_touch v)

theorem spends_bindRegister (binds : m ≠ .careful false) (r : Register) (v : ValueId) :
    Spends m c [] (bindRegister r v) := by
  refine spends_of_runs (walks_bindRegister trivial) (mildly.holds_bindRegister r v) fun run => ?_
  obtain ⟨value, found, _, _, _, _, remarks, _, rfl⟩ := runs_bindRegister run
  exact .seated found rfl binds

theorem spends_unbindRegister
    (spare : m ≠ .parting → ∀ {v value}, c.registers.occupant? r = some v →
      c.values.get? v = some value → value.isUnnamed = true → value.references = 0) :
    Spends m c [] (unbindRegister r) := by
  refine spends_of_runs (walks_unbindRegister r) (mildly.holds_unbindRegister r) fun run => ?_
  obtain ⟨value, found, occupied, range, _, _, remarks, _, rfl⟩ := runs_unbindRegister run
  refine .modify found rfl ⟨rfl, rfl, fun lasting unnamed left => ?_⟩ fun _ =>
    occupant?_emptied range
  exact absurd (spare lasting occupied found unnamed) left.ne'

theorem spends_unbindRegister_parting (r : Register) : Spends .parting c [] (unbindRegister r) :=
  spends_unbindRegister fun lasting => (lasting rfl).elim

theorem spends_setPosition {place : Position} (memory : place.isRegister = false) :
    Spends m c [] (setPosition v (some place)) := by
  refine spends_update (fun _ _ owned run => ?_) fun _ => .moved place
  obtain ⟨⟨value, found⟩, rfl⟩ := runs_updateValue.mp run
  refine ⟨owned.modify found rfl (fun is_home => owned.settled found is_home) (fun pos => ?_)
    fun _ held => held, .modify _ _ fun _ => ⟨rfl, rfl, id, id⟩, rfl⟩
  cases pos
  cases memory

theorem spends_of_room {x : Gen α} (walks : Discipline.owned.Walks c x) (mild : Mild x)
    (room : ∀ {a c'}, Runs x c a c' → ∃ gone effect, MakesRoom .zero .zero gone effect c c') :
    Spends m c [] x := by
  refine spends_of_runs walks mild fun run => ?_
  obtain ⟨_, _, made⟩ := room run
  exact .of_recedes made.toRecedes

theorem spends_homeOf (v : ValueId) : Spends m c [] (homeOf v) :=
  spends_of_room (walks_homeOf v) (mildly.holds_homeOf v)
    fun run => ⟨fun _ => False, _, homeOf_room run⟩

theorem spends_spill (found : c.values.get? v = some value) (unnamed : value.isNamed = false)
    (pos : value.position = some (.register r)) : Spends m c [] (spill v r) :=
  spends_of_owned fun owned => spends_of_room (walks_spill found unnamed (.inr pos))
    (mildly.holds_spill v r) fun run =>
      ⟨_, _, spill_room found unnamed (owned.owned found pos) run⟩

theorem spends_obtainRegister (bank : Bank) : Spends m c [] (obtainRegister bank) :=
  spends_of_room (walks_obtainRegister bank) (mildly.holds_obtainRegister bank)
    fun run => ⟨_, _, (obtainRegister_obtains run).room⟩

theorem spends_store (src : Register) (target : Position) (ty : Ty) :
    Spends m c [] (store src target ty) :=
  spends_of_room (walks_store src target ty) (mildly.holds_store src target ty)
    fun run => ⟨_, _, storeVia_room obtainRegister_obtains run⟩

theorem spends_vacate (r : Register) : Spends m c [] (vacate r) :=
  spends_of_room (walks_vacate r) (mildly.holds_vacate r)
    fun run => ⟨_, _, (vacate_room run).1⟩

theorem spends_flush (v : ValueId) : Spends m c [] (flush v) :=
  spends_of_room (walks_flush v) (mildly.holds_flush v)
    fun run => ⟨_, _, flush_room run⟩

theorem spends_flushAll : Spends m c [] flushAll :=
  spends_of_room walks_flushAll mildly.holds_flushAll
    fun run => ⟨_, _, flushAll_room run⟩

theorem spends_releaseEscaped : Spends m c [] releaseEscaped :=
  spends_of_room walks_releaseEscaped mildly.holds_releaseEscaped
    fun run => ⟨_, _, (releaseEscaped_room run).1⟩

theorem spends_vacateAll : Spends m c [] vacateAll :=
  spends_of_room walks_vacateAll mildly.holds_vacateAll
    fun run => ⟨_, _, (vacateAll_room run).1⟩

theorem empties_vacateAll : Empties vacateAll := by
  intro c u c' run
  have room : MakesRoom .zero .zero (fun _ => True) id c c' ∧ c'.Vacant := vacateAll_room run
  exact room.2

theorem spends_dropAll_strict : Spends m c [] (dropAll true) := by
  have dropped {m : Manner} {r : Register} {v : ValueId} {c : Context}
      (listed : ∀ {w}, c.registers.occupant? r = some w → w = v) : Spends m c [] (do
        let value ← valueOf v
        if true && value.isUnnamed && 0 < value.references then
          inconsistent (.referencedAtLabel v value.description r)
        discard (unbindRegister r)
        pure (ForInStep.yield PUnit.unit)) := by
    refine spends_valueOf fun {value} found =>
      spends_ite (fun _ => spends_throw_then rfl) fun spare => ?_
    refine spends_seq
      (spends_discard (spends_unbindRegister fun _ {w value'} occupied found' unnamed => ?_))
      (spends_pure _)
    obtain rfl := listed occupied
    obtain rfl := mem_unique found found'
    simpa [unnamed] using spare
  have swept (xs : List (Register × ValueId)) (u : PUnit) (c : Context)
      (listed : ∀ {r v w}, (r, v) ∈ xs → c.registers.occupant? r = some w → w = v) :
        Spends m c [] (forIn xs u
        fun pair _ => do
          let value ← valueOf pair.2
          if true && value.isUnnamed && 0 < value.references then
            inconsistent (.referencedAtLabel pair.2 value.description pair.1)
          discard (unbindRegister pair.1)
          pure (ForInStep.yield PUnit.unit)) := by
    induction xs generalizing u c with
    | nil => exact spends_pure _
    | cons pair rest ih =>
      rw [List.forIn_cons]
      have first {m : Manner} :=
        dropped (m := m) (r := pair.1) (v := pair.2) (c := c) (listed (List.mem_cons_self ..))
      refine spends_of_owned fun owned => spends_bind first fun {step c1} run _ _ => ?_
      obtain ⟨_, spent⟩ := (first (m := .careful false) owned).1 run
      cases step with
      | done u => exact spends_pure _
      | yield u =>
        exact ih u c1 fun member occupied => listed (List.mem_cons_of_mem _ member)
          (spent.emptied rfl occupied)
  refine spends_get (spends_seq (swept _ _ c fun member occupied => ?_) (spends_pure _))
  exact mem_unique occupied (mem_allOccupied.mp member)

theorem spends_dropAll_parting : Spends .parting c [] (dropAll false) := by
  refine spends_get
    (spends_seq (spends_forIn (fun pair _ _ => spends_valueOf fun _ => ?_) _) (spends_pure _))
  exact spends_ite (fun _ => spends_throw_then rfl) fun _ =>
    spends_seq (spends_discard (spends_unbindRegister_parting _)) (spends_pure _)

theorem spends_dropAll_vacant (vacant : c.Vacant) (strict : Bool) :
    Spends m c [] (dropAll strict) := by
  refine spends_get (spends_seq ?_ (spends_pure _))
  rw [vacant.allOccupied]
  exact spends_pure _

theorem Spends.vacant {x : Gen α} {a : α} {c' : Context}
    (spends : Spends (.careful false) c used x) (owned : c.Owned) (run : Runs x c a c')
    (vacant : c.Vacant) : c'.Vacant := by
  intro r
  cases occupied : c'.registers.occupant? r with
  | none => rfl
  | some v => exact (((spends owned).1 run).2.emptied rfl occupied).symm.trans (vacant r)

end Gen

end RegisterBackend
