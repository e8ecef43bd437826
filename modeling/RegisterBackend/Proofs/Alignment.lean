import RegisterBackend.Proofs.Places

/-!
Where the parts of an aggregate lie. A path of field numbers and element indices leads to a part;
sizes are numbers without a bound.
-/
namespace RegisterBackend

open Option

namespace Ty

variable {t part : Ty} {fields : List (String × Ty)}

/-- The type is made of the machine's numbers, pointers and functions. -/
inductive Standard : Ty → Prop
  | void : Standard .void
  | bool : Standard .bool
  | int {size : Nat} {signed : Bool} (sized : size ∈ [1, 2, 4, 8]) : Standard (.int size signed)
  | float {size : Nat} (sized : size ∈ [4, 8]) : Standard (.float size)
  | pointer (target : Ty) : Standard (.pointer target)
  | function (params : List Ty) (result : Ty) : Standard (.function params result)
  | array {element : Ty} (length : Nat) (inner : Standard element) :
      Standard (.array element length)
  | struct {name : String} {fields : List (String × Ty)}
      (inner : ∀ field ∈ fields, Standard field.2) : Standard (.struct name fields)
  | const {t : Ty} (inner : Standard t) : Standard (.const t)

inductive Selector where
  | field (index : Nat)
  | element (index : Nat)
  deriving DecidableEq

def select? : Ty → Selector → Option (Nat × Ty)
  | .const t, selector => t.select? selector
  | .array element length, .element index =>
      if index < length then some (index * element.size, element) else none
  | t, .field index => (t.layout?.bind (·.fields[index]?)).map fun field => (field.offset, field.ty)
  | _, _ => none

def part? (t : Ty) : List Selector → Option (Nat × Ty)
  | [] => some (0, t)
  | selector :: rest => (t.select? selector).bind fun (offset, inner) =>
    (inner.part? rest).map fun (further, part) => (offset + further, part)

def isLeaf (t : Ty) : Bool := !t.isArray && !t.isStruct

theorem le_of_dvd_eight {a : Nat} (power : a ∣ 8) : 0 < a ∧ a ≤ 8 :=
  ⟨Nat.pos_of_dvd_of_pos power (by decide), Nat.le_of_dvd (by decide) power⟩

theorem dvd_of_le_of_dvd_eight {a b : Nat} (le : a ≤ b) (power : a ∣ 8)
    (power' : b ∣ 8) : a ∣ b := by
  obtain ⟨i, -, rfl⟩ := (Nat.dvd_prime_pow (m := 3) Nat.prime_two).mp power
  obtain ⟨j, -, rfl⟩ := (Nat.dvd_prime_pow (m := 3) Nat.prime_two).mp power'
  exact Nat.pow_dvd_pow 2 ((Nat.pow_le_pow_iff_right (by decide)).mp le)

theorem fieldsAlign_dvd_eight (powers : ∀ field ∈ fields, field.2.align ∣ 8) :
    fieldsAlign fields ∣ 8 := by
  induction fields with
  | nil => exact one_dvd 8
  | cons field rest ih =>
    rw [fieldsAlign]
    rcases max_choice field.2.align (fieldsAlign rest) with same | same <;> rw [same]
    · exact powers field (.head _)
    · exact ih fun field member => powers field (.tail _ member)

theorem align_le_fieldsAlign {field : String × Ty} (member : field ∈ fields) :
    field.2.align ≤ fieldsAlign fields := by
  induction member with
  | head => exact le_max_left _ _
  | tail _ _ ih => exact ih.trans (le_max_right _ _)

/-- The padding at the end of a struct makes the size a multiple of the alignment again. -/
theorem Standard.align_dvd (standard : t.Standard) : t.align ∣ 8 ∧ t.align ∣ t.size := by
  induction standard with
  | int sized =>
    simp only [List.mem_cons, List.not_mem_nil, or_false] at sized
    rcases sized with rfl | rfl | rfl | rfl <;> simp [align, size]
  | float sized =>
    simp only [List.mem_cons, List.not_mem_nil, or_false] at sized
    rcases sized with rfl | rfl <;> simp [align, size]
  | array length _ ih => exact ⟨ih.1, Dvd.dvd.mul_right ih.2 length⟩
  | struct _ ih =>
    exact ⟨fieldsAlign_dvd_eight fun field member => (ih field member).1, dvd_alignUp _ _⟩
  | const _ ih => exact ih
  | _ => simp [align, size, wordSize]

theorem Standard.align_pos (standard : t.Standard) : 0 < t.align :=
  (le_of_dvd_eight standard.align_dvd.1).1

theorem names_placeFields (fields : List (String × Ty)) (start : Nat) :
    (placeFields fields start).map (fun field => (field.name, field.ty)) = fields := by
  induction fields generalizing start with
  | nil => rfl
  | cons field rest ih => simp [placeFields, ih]

variable (positive : ∀ field ∈ fields, 0 < field.2.align)
include positive

theorem start_le_fieldsEnd (start : Nat) : start ≤ fieldsEnd fields start := by
  induction fields generalizing start with
  | nil => exact le_rfl
  | cons field rest ih =>
    have before := le_alignUp start (positive field (.head _))
    have after := ih (fun field member => positive field (.tail _ member))
      (alignUp start field.2.align + field.2.size)
    simp only [fieldsEnd]
    omega

/-- Each field begins where its alignment allows and ends before the fields after it begin. -/
theorem placeFields_placed (start : Nat) :
    (∀ field ∈ placeFields fields start, field.ty.align ∣ field.offset
      ∧ start ≤ field.offset ∧ field.offset + field.ty.size ≤ fieldsEnd fields start)
    ∧ (placeFields fields start).Pairwise fun a b => a.offset + a.ty.size ≤ b.offset := by
  induction fields generalizing start with
  | nil => simp [placeFields]
  | cons field rest ih =>
    obtain ⟨name, ty⟩ := field
    have later := fun field member => positive field (List.mem_cons_of_mem _ member)
    have before : start ≤ alignUp start ty.align := le_alignUp start (positive (name, ty) (.head _))
    obtain ⟨placed, ordered⟩ := ih later (alignUp start ty.align + ty.size)
    simp only [placeFields, fieldsEnd, List.pairwise_cons]
    refine ⟨fun field member => ?_, fun field member => (placed field member).2.1, ordered⟩
    rcases List.mem_cons.mp member with rfl | member
    · exact ⟨dvd_alignUp _ _, before, start_le_fieldsEnd later _⟩
    · obtain ⟨aligned, after, inside⟩ := placed field member
      exact ⟨aligned, by omega, inside⟩

omit positive

variable {selector selector' : Selector} {offset offset' : Nat} {inner inner' part' : Ty}

theorem part?_cons {rest : List Selector}
    (leads : t.part? (selector :: rest) = some (offset, part)) : ∃ first inner further,
      t.select? selector = some (first, inner) ∧ inner.part? rest = some (further, part)
      ∧ offset = first + further := by
  simp only [part?, bind_eq_some_iff, map_eq_some_iff, Prod.mk.injEq] at leads
  obtain ⟨⟨first, inner⟩, selects, ⟨further, part⟩, leads, rfl, rfl⟩ := leads
  exact ⟨first, inner, further, selects, leads, rfl⟩

namespace Standard

theorem placed (name : String) (inner : ∀ field ∈ fields, Standard field.2) {field : Field}
    (member : field ∈ placeFields fields 0) :
    field.ty.Standard ∧ field.ty.align ∣ fieldsAlign fields ∧ field.ty.align ∣ field.offset
      ∧ field.offset + field.ty.size ≤ (Ty.struct name fields).size := by
  have declared : (field.name, field.ty) ∈ fields := by
    rw [← names_placeFields fields 0]
    exact List.mem_map_of_mem member
  have whole : (Ty.struct name fields).Standard := .struct inner
  obtain ⟨aligned, _, inside⟩ :=
    (placeFields_placed (fun field member => (inner field member).align_pos) 0).1 field member
  refine ⟨inner _ declared, ?_, aligned, inside.trans (le_alignUp _ whole.align_pos)⟩
  exact dvd_of_le_of_dvd_eight (align_le_fieldsAlign declared)
    (inner _ declared).align_dvd.1 whole.align_dvd.1

section
variable (standard : t.Standard)
include standard

theorem layout {layout : StructLayout} (is_layout : t.layout? = some layout) :
    layout.size = t.size ∧ layout.align = t.align
      ∧ (∀ field ∈ layout.fields, field.ty.align ∣ field.offset
        ∧ field.offset + field.ty.size ≤ layout.size)
      ∧ layout.fields.Pairwise fun a b => a.offset + a.ty.size ≤ b.offset := by
  induction standard with
  | const _ ih => exact ih is_layout
  | @struct name fields inner =>
    cases is_layout
    refine ⟨rfl, rfl, fun field member => (placed name inner member).2.2, ?_⟩
    exact (placeFields_placed (fun field member => (inner field member).align_pos) 0).2
  | _ => cases is_layout

theorem select (selects : t.select? selector = some (offset, inner)) :
    t.isLeaf = false ∧ inner.Standard ∧ inner.align ∣ t.align ∧ inner.align ∣ offset
    ∧ offset + inner.size ≤ t.size := by
  induction standard with
  | const _ ih => exact ih selects
  | array length standard =>
    cases selector with
    | field index => cases selects
    | element index =>
      simp only [select?, ite_none_right_eq_some, Option.some.injEq, Prod.mk.injEq] at selects
      obtain ⟨below, rfl, rfl⟩ := selects
      refine ⟨rfl, standard, dvd_rfl, Dvd.dvd.mul_left standard.align_dvd.2 index, ?_⟩
      calc index * _ + _ = _ * (index + 1) := by ring
        _ ≤ _ * length := Nat.mul_le_mul_left _ below
  | struct inner =>
    cases selector with
    | element index => cases selects
    | field index =>
      obtain ⟨field, at_index, same⟩ := map_eq_some_iff.mp selects
      cases same
      exact ⟨rfl, placed _ inner (List.mem_of_getElem? at_index)⟩
  | _ => cases selector <;> cases selects

theorem select_apart (selects : t.select? selector = some (offset, inner))
    (selects' : t.select? selector' = some (offset', inner')) (ne : selector ≠ selector') :
    offset + inner.size ≤ offset' ∨ offset' + inner'.size ≤ offset := by
  induction standard with
  | const _ ih => exact ih selects selects'
  | @array element length standard =>
    cases selector with
    | field i => cases selects
    | element i => cases selector' with
      | field j => cases selects'
      | element j =>
        simp only [select?, ite_none_right_eq_some, Option.some.injEq,
          Prod.mk.injEq] at selects selects'
        obtain ⟨⟨-, rfl, rfl⟩, -, rfl, rfl⟩ := And.intro selects selects'
        rcases lt_or_gt_of_ne (show i ≠ j by simpa using ne) with less | greater
        · exact .inl (by simpa [Nat.succ_mul] using Nat.mul_le_mul_right element.size less)
        · exact .inr (by simpa [Nat.succ_mul] using Nat.mul_le_mul_right element.size greater)
  | struct inner =>
    cases selector with
    | element i => cases selects
    | field i => cases selector' with
      | element j => cases selects'
      | field j =>
        have ordered := List.pairwise_iff_getElem.mp
          (placeFields_placed (fun field member => (inner field member).align_pos) 0).2
        obtain ⟨field, at_i, same⟩ := map_eq_some_iff.mp selects
        obtain ⟨field', at_j, same'⟩ := map_eq_some_iff.mp selects'
        cases same
        cases same'
        obtain ⟨hi, rfl⟩ := List.getElem?_eq_some_iff.mp at_i
        obtain ⟨hj, rfl⟩ := List.getElem?_eq_some_iff.mp at_j
        rcases lt_or_gt_of_ne (show i ≠ j by simpa using ne) with less | greater
        · exact .inl (ordered i j hi hj less)
        · exact .inr (ordered j i hj hi greater)
  | _ => cases selector <;> cases selects

theorem part_inside {path : List Selector} (leads : t.part? path = some (offset, part)) :
    part.align ∣ t.align ∧ part.align ∣ offset ∧ offset + part.size ≤ t.size := by
  induction path generalizing t offset with
  | nil =>
    cases leads
    simp
  | cons selector rest ih =>
    obtain ⟨first, inner, further, selects, later, rfl⟩ := part?_cons leads
    obtain ⟨_, standard', coarser, aligned, inside⟩ := standard.select selects
    obtain ⟨coarser', aligned', inside'⟩ := ih standard' later
    refine ⟨coarser'.trans coarser, Nat.dvd_add (coarser'.trans aligned) aligned', ?_⟩
    omega

theorem leaves_apart {path path' : List Selector}
    (leads : t.part? path = some (offset, part)) (leads' : t.part? path' = some (offset', part'))
    (leaf : part.isLeaf = true) (leaf' : part'.isLeaf = true) (ne : path ≠ path') :
    offset + part.size ≤ offset' ∨ offset' + part'.size ≤ offset := by
  induction path generalizing t offset offset' path' with
  | nil =>
    cases path' with
    | nil => contradiction
    | cons selector rest =>
      cases leads
      obtain ⟨_, _, _, selects, _⟩ := part?_cons leads'
      cases leaf.symm.trans (standard.select selects).1
  | cons selector rest ih =>
    obtain ⟨first, inner, further, selects, later, rfl⟩ := part?_cons leads
    cases path' with
    | nil =>
      cases leads'
      cases leaf'.symm.trans (standard.select selects).1
    | cons selector' rest' =>
      obtain ⟨first', inner', further', selects', later', rfl⟩ := part?_cons leads'
      have standard1 := (standard.select selects).2.1
      by_cases same : selector = selector'
      · cases same
        cases selects.symm.trans selects'
        have := ih standard1 later later' (fun same => ne (same ▸ rfl))
        omega
      · have inside := (standard1.part_inside later).2.2
        have inside' := ((standard.select selects').2.1.part_inside later').2.2
        have := standard.select_apart selects selects' same
        omega

end

end Standard

/-- However arrays and structs are nested, alignments are powers of two up to eight that divide the
sizes; fields follow one another in the order of their declaration, each at a multiple of its
alignment; every part lies inside the object at a multiple of its own alignment, and leaves at the
ends of different paths share no byte. -/
theorem parts_aligned_and_apart (t : Ty) (standard : t.Standard) :
    (∃ k, t.align = 2 ^ k) ∧ t.align ≤ 8 ∧ t.align ∣ t.size
    ∧ (∀ name fields, t = .struct name fields → ∃ layout, t.layout? = some layout
      ∧ layout.fields.map (fun field => (field.name, field.ty)) = fields)
    ∧ (∀ layout, t.layout? = some layout → layout.size = t.size ∧ layout.align = t.align
      ∧ (∀ field ∈ layout.fields, field.ty.align ∣ field.offset
        ∧ field.offset + field.ty.size ≤ layout.size)
      ∧ layout.fields.Pairwise fun a b => a.offset + a.ty.size ≤ b.offset)
    ∧ (∀ path offset part, t.part? path = some (offset, part) → part.align ∣ offset
      ∧ offset + part.size ≤ t.size)
    ∧ ∀ path path' offset offset' part part', path ≠ path' → t.part? path = some (offset, part) →
      t.part? path' = some (offset', part') → part.isLeaf = true → part'.isLeaf = true →
      offset + part.size ≤ offset' ∨ offset' + part'.size ≤ offset := by
  obtain ⟨power, divides⟩ := standard.align_dvd
  obtain ⟨k, -, is_power⟩ := (Nat.dvd_prime_pow (m := 3) Nat.prime_two).mp power
  refine ⟨⟨k, is_power⟩, (le_of_dvd_eight power).2, divides, ?_, fun layout is_layout =>
    standard.layout is_layout,
    fun path offset part leads => (standard.part_inside leads).2, ?_⟩
  · rintro name fields rfl
    exact ⟨_, rfl, names_placeFields fields 0⟩
  · intro path path' offset offset' part part' ne leads leads' leaf leaf'
    exact standard.leaves_apart leads leads' leaf leaf' ne

def pairs : Ty :=
  .struct "pairs" [("count", .int 2 false),
    ("entries", .array (.struct "entry" [("tag", .u8), ("number", .float 8)]) 3)]

theorem pairs_aligned_and_apart : pairs.part? [.field 1, .element 2, .field 1] = some (48, .float 8)
    ∧ 8 ∣ 48 ∧ 48 + 8 ≤ pairs.size ∧ pairs.part? [.field 1, .element 1, .field 0] = some (24, .u8)
    ∧ (48 + 8 ≤ 24 ∨ 24 + 1 ≤ 48) := by
  have standard : pairs.Standard := by
    refine .struct fun field member => ?_
    simp only [List.mem_cons, List.not_mem_nil, or_false] at member
    rcases member with rfl | rfl
    · exact .int (by decide)
    · refine .array 3 (.struct fun field member => ?_)
      simp only [List.mem_cons, List.not_mem_nil, or_false] at member
      rcases member with rfl | rfl
      · exact .int (by decide)
      · exact .float (by decide)
  have number : pairs.part? [.field 1, .element 2, .field 1] = some (48, .float 8) := by rfl
  have tag : pairs.part? [.field 1, .element 1, .field 0] = some (24, .u8) := by rfl
  obtain ⟨-, -, -, -, -, inside, apart⟩ := parts_aligned_and_apart pairs standard
  have placed := inside _ _ _ number
  exact ⟨number, placed.1, placed.2, tag, apart _ _ _ _ _ _ (by decide) number tag rfl rfl⟩

end Ty

end RegisterBackend
