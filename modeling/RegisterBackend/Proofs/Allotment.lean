import RegisterBackend.Proofs.Places

/-!
Memory is handed out once: whatever was handed out stays apart from all that comes later, because
every area only grows.
-/
namespace RegisterBackend

structure Areas where
  frames : Frames := {}
  statics : StaticSegment := {}
  constants : ConstantPool := {}

inductive Request where
  | frame (taken : Nat)
  | slot (frame : FrameId) (size : Nat)
  | static (size align : Nat)
  | blob (bytes : List UInt8)

inductive Grant where
  | frame (id : FrameId)
  | slot (slot : StackSlot)
  | refused (cause : FrameError)
  | static (offset : Nat)
  | exhausted
  | blob (id : ConstantId)

def Request.IsModest : Request → Prop
  | .frame taken => taken ≤ 2 ^ 32 - 8
  | _ => True

namespace Areas

def serve (a : Areas) : Request → Grant × Areas
  | .frame taken =>
    let (id, frames) := a.frames.start taken
    (.frame id, { a with frames })
  | .slot frame size =>
    match a.frames.allocate frame size with
    | .ok (slot, frames) => (.slot slot, { a with frames })
    | .error cause => (.refused cause, a)
  | .static size align =>
    match a.statics.allocate size align with
    | some (offset, statics) => (.static offset, { a with statics })
    | none => (.exhausted, a)
  | .blob bytes =>
    let (id, constants) := a.constants.add bytes
    (.blob id, { a with constants })

def after (requests : List Request) : Areas := requests.foldl (fun a r => (a.serve r).2) {}

def granted (before : List Request) (request : Request) : Grant := ((after before).serve request).1

theorem after_concat (before : List Request) (request : Request) :
    after (before ++ [request]) = ((after before).serve request).2 := by
  simp [after]

structure Grows (a b : Areas) : Prop where
  frames : ∀ {frame n}, a.frames.size? frame = some n →
    ∃ n', b.frames.size? frame = some n' ∧ n ≤ n'
  statics : a.statics.used ≤ b.statics.used
  blobs : ∀ {id bytes}, a.constants.get? id = some bytes → b.constants.get? id = some bytes

theorem Grows.refl (a : Areas) : a.Grows a := ⟨fun known => ⟨_, known, le_rfl⟩, le_rfl, id⟩

theorem Grows.trans {a b c : Areas} (first : a.Grows b) (second : b.Grows c) : a.Grows c where
  frames known := by
    obtain ⟨n, known', le⟩ := first.frames known
    obtain ⟨n', known'', le'⟩ := second.frames known'
    exact ⟨n', known'', le.trans le'⟩
  statics := first.statics.trans second.statics
  blobs known := second.blobs (first.blobs known)

variable {a : Areas} {frame : FrameId} {size offset : Nat} {before : List Request}

theorem serve_slot (a : Areas) (frame : FrameId) (size : Nat) :
    (a.frames.size? frame = none ∧ a.serve (.slot frame size) = (.refused (.unknownFrame frame), a))
    ∨ ∃ offset, a.frames.size? frame = some offset ∧
      if maxFrameSize < offset + alignUp (max size 1) wordSize then
        a.serve (.slot frame size) = (.refused (.tooLarge frame), a)
      else a.serve (.slot frame size) = (.slot (.inFrame frame offset), { a with
        frames := a.frames.withSize frame (offset + alignUp (max size 1) wordSize) }) := by
  cases known : a.frames.size? frame with
  | none => exact .inl ⟨rfl, by simp [serve, Frames.allocate, known]⟩
  | some offset =>
    refine .inr ⟨offset, rfl, ?_⟩
    split
    · next large => simp [serve, Frames.allocate, known, large]
    · next fits => simp [serve, Frames.allocate, known, fits, Frames.withSize]

theorem serve_static (a : Areas) (size align : Nat) :
    ∃ offset, alignUp a.statics.used (min (max align 1) wordSize) = offset ∧
      if offset + max size 1 < wordLimit then
        a.serve (.static size align) = (.static offset, { a with statics := ⟨offset + max size 1⟩ })
      else a.serve (.static size align) = (.exhausted, a) := by
  refine ⟨_, rfl, ?_⟩
  split
  · next fits => simp [serve, StaticSegment.allocate, fits]
  · next large => simp [serve, StaticSegment.allocate, large]

theorem serve_grows (a : Areas) (request : Request) : a.Grows (a.serve request).2 := by
  cases request with
  | frame taken =>
    refine ⟨fun {frame n} known => ⟨n, ?_, le_rfl⟩, le_rfl, id⟩
    obtain ⟨small, _⟩ := Array.getElem?_eq_some_iff.mp known
    simpa [serve, Frames.start, Frames.size?, Array.getElem?_push, small.ne] using known
  | slot frame size =>
    obtain ⟨_, same⟩ | ⟨offset, known, rest⟩ := serve_slot a frame size
    · rw [same]
      exact .refl a
    · split at rest <;> rw [rest]
      · exact .refl a
      · refine ⟨fun {other n} known' => ?_, le_rfl, id⟩
        simp only [Frames.size?_withSize known]
        by_cases same : other = frame
        · subst same
          obtain rfl := Option.mem_unique known known'
          exact ⟨_, if_pos rfl, Nat.le_add_right _ _⟩
        · exact ⟨n, by rw [if_neg same, known'], le_rfl⟩
  | static size align =>
    obtain ⟨offset, aligned, rest⟩ := serve_static a size align
    have le : a.statics.used ≤ offset := aligned ▸ le_alignUp _ (by simp only [wordSize]; omega)
    split at rest <;> rw [rest]
    · exact ⟨fun known => ⟨_, known, le_rfl⟩, le.trans (Nat.le_add_right _ _), id⟩
    · exact .refl a
  | blob bytes =>
    refine ⟨fun known => ⟨_, known, le_rfl⟩, le_rfl, fun {id blob} known => ?_⟩
    obtain ⟨small, _⟩ := Array.getElem?_eq_some_iff.mp known
    simpa [serve, ConstantPool.add, ConstantPool.get?, Array.getElem?_push, small.ne] using known

def Sound (a : Areas) : Prop :=
  ∀ {frame n}, a.frames.size? frame = some n → wordSize ∣ n ∧ n ≤ maxFrameSize

theorem serve_sound (sound : a.Sound) {request : Request} (modest : request.IsModest) :
    (a.serve request).2.Sound := by
  cases request with
  | frame taken =>
    intro frame n known
    simp only [serve, Frames.start, Frames.size?, Array.getElem?_push] at known
    split at known
    · have small : alignUp taken wordSize < 0x100000000 := by
        simp only [Request.IsModest] at modest
        simp only [alignUp, wordSize]
        omega
      rw [Nat.mod_eq_of_lt small, Option.some.injEq] at known
      subst known
      exact ⟨dvd_alignUp _ _, by simp only [maxFrameSize]; omega⟩
    · exact sound known
  | slot frame size =>
    obtain ⟨_, same⟩ | ⟨offset, known, rest⟩ := serve_slot a frame size
    · rwa [same]
    · split at rest <;> rw [rest]
      · exact sound
      · next fits =>
        intro other n known'
        simp only [Frames.size?_withSize known] at known'
        split at known'
        · cases known'
          exact ⟨Nat.dvd_add (sound known).1 (dvd_alignUp _ _), by omega⟩
        · exact sound known'
  | static size align =>
    obtain ⟨_, _, rest⟩ := serve_static a size align
    split at rest <;> rw [rest] <;> exact sound
  | blob bytes => exact sound

theorem after_grows (before later : List Request) :
    (after before).Grows (after (before ++ later)) := by
  induction later using List.reverseRecOn with
  | nil => simpa using Grows.refl (after before)
  | append_singleton later request ih =>
    rw [← List.append_assoc, after_concat]
    exact ih.trans (serve_grows _ request)

theorem after_cons_grows (before : List Request) (request : Request) (later : List Request) :
    ((after before).serve request).2.Grows (after (before ++ request :: later)) := by
  have grows := after_grows (before ++ [request]) later
  rwa [after_concat, List.append_assoc, List.singleton_append] at grows

theorem after_sound {requests : List Request} (modest : ∀ request ∈ requests, request.IsModest) :
    (after requests).Sound := by
  induction requests using List.reverseRecOn with
  | nil => simp [Sound, after, Frames.size?]
  | append_singleton before request ih =>
    rw [after_concat]
    exact serve_sound (ih fun r member => modest r (by simp [member])) (modest request (by simp))

theorem slot_granted {slot : StackSlot}
    (given : granted before (.slot frame size) = .slot slot) (later : List Request) :
    ∃ offset n, slot = .inFrame frame offset ∧ (after before).frames.size? frame = some offset
      ∧ (after (before ++ .slot frame size :: later)).frames.size? frame = some n
      ∧ offset + max size 1 ≤ n := by
  rw [granted] at given
  obtain ⟨_, same⟩ | ⟨offset, known, rest⟩ := serve_slot (after before) frame size
  · simp [same] at given
  · split at rest <;> simp only [rest, reduceCtorEq, Grant.slot.injEq] at given
    have grows := after_cons_grows before (.slot frame size) later
    rw [rest] at grows
    obtain ⟨n, known', le⟩ :=
      grows.frames ((Frames.size?_withSize known _ frame).trans (if_pos rfl))
    have words := le_alignUp (max size 1) (show 0 < wordSize by decide)
    exact ⟨offset, n, given.symm, known, known', by omega⟩

theorem frame_granted {taken : Nat} (modest : (Request.frame taken).IsModest)
    (given : granted before (.frame taken) = .frame frame) (later : List Request) :
    ∃ n, (after (before ++ .frame taken :: later)).frames.size? frame = some n ∧ taken ≤ n := by
  obtain rfl : (⟨(after before).frames.sizes.size⟩ : FrameId)
    = frame := by simpa [granted, serve, Frames.start] using given
  have started : ((after before).serve (.frame taken)).2.frames.size?
      ⟨(after before).frames.sizes.size⟩ = some (alignUp taken wordSize) := by
    simp only [Request.IsModest] at modest
    simp only [serve, Frames.start, Frames.size?, Array.getElem?_push_size,
      Option.some.injEq, alignUp, wordSize]
    omega
  obtain ⟨n, known, le⟩ := (after_cons_grows before (.frame taken) later).frames started
  exact ⟨n, known, (le_alignUp taken (by decide)).trans le⟩

theorem static_granted {align : Nat}
    (given : granted before (.static size align) = .static offset) (later : List Request) :
    min (max align 1) wordSize ∣ offset ∧ (after before).statics.used ≤ offset
      ∧ offset + max size 1 ≤ (after (before ++ .static size align :: later)).statics.used := by
  rw [granted] at given
  obtain ⟨_, rfl, rest⟩ := serve_static (after before) size align
  split at rest <;> simp only [rest, reduceCtorEq, Grant.static.injEq] at given
  have grows := after_cons_grows before (.static size align) later
  rw [rest] at grows
  subst given
  exact ⟨dvd_alignUp _ _, le_alignUp _ (by simp only [wordSize]; omega), grows.statics⟩

theorem blob_granted {bytes : List UInt8} {id : ConstantId}
    (given : granted before (.blob bytes) = .blob id) (later : List Request) :
    (after before).constants.get? id = none
      ∧ (after (before ++ .blob bytes :: later)).constants.get? id = some bytes := by
  simp only [granted, serve, ConstantPool.add, Grant.blob.injEq] at given
  subst given
  refine ⟨by simp [ConstantPool.get?], (after_cons_grows before (.blob bytes) later).blobs ?_⟩
  simp [serve, ConstantPool.add, ConstantPool.get?]

/-- Storage is handed out once, in whatever order it is asked for. -/
theorem storage_handed_out_once {history : List Request}
    (modest : ∀ request ∈ history, request.IsModest) :
    -- Frames have whole words, do not shrink and have a largest size.
    (∀ {frame n}, (after history).frames.size? frame = some n → 8 ∣ n ∧ n ≤ 2 ^ 32 - 1)
    ∧ (∀ {before later : List Request} {frame n}, history = before ++ later →
        (after before).frames.size? frame = some n → ∃ n', (after history).frames.size? frame
        = some n' ∧ n ≤ n')
    -- Slots are aligned, within their frame, behind its first bytes and apart from later ones.
    ∧ (∀ {before later : List Request} {frame size slot},
        history = before ++ .slot frame size :: later →
        granted before (.slot frame size) = .slot slot →
        ∃ offset n, slot = .inFrame frame offset ∧ 8 ∣ offset
          ∧ (after history).frames.size? frame = some n ∧ offset + max size 1 ≤ n
          ∧ (∀ {earlier between : List Request} {taken},
              before = earlier ++ .frame taken :: between →
              granted earlier (.frame taken) = .frame frame → taken ≤ offset)
          ∧ ∀ {between rest : List Request} {size' offset'},
              later = between ++ .slot frame size' :: rest →
              granted (before ++ .slot frame size :: between) (.slot frame size')
                = .slot (.inFrame frame offset') → offset + max size 1 ≤ offset')
    -- Slots are refused for two reasons, and then nothing changes.
    ∧ (∀ {before later : List Request} {frame size},
        history = before ++ .slot frame size :: later →
        (granted before (.slot frame size) = .refused (.unknownFrame frame)
          ↔ (after before).frames.size? frame = none)
        ∧ (granted before (.slot frame size) = .refused (.tooLarge frame)
          ↔ ∃ offset, (after before).frames.size? frame = some offset
            ∧ 2 ^ 32 - 1 < offset + alignUp (max size 1) 8)
        ∧ ∀ {cause}, granted before (.slot frame size) = .refused cause →
            (cause = .unknownFrame frame ∨ cause = .tooLarge frame)
              ∧ after (before ++ [.slot frame size]) = after before)
    -- Static memory is aligned, within the segment and apart from what is handed out later.
    ∧ 8 ∣ (after history).statics.size
    ∧ (∀ {before later : List Request} {size align offset},
        history = before ++ .static size align :: later →
        granted before (.static size align) = .static offset →
        min (max align 1) 8 ∣ offset ∧ offset + max size 1 ≤ (after history).statics.size
          ∧ ∀ {between rest : List Request} {size' align' offset'},
              later = between ++ .static size' align' :: rest →
              granted (before ++ .static size align :: between) (.static size' align')
                = .static offset' → offset + max size 1 ≤ offset')
    -- It runs out exactly where its end is no word, and then nothing changes.
    ∧ (∀ {before later : List Request} {size align},
        history = before ++ .static size align :: later →
        let limit := alignUp (after before).statics.used (min (max align 1) 8) + max size 1
        (limit < 2 ^ 64 → ∃ offset, granted before (.static size align) = .static offset)
        ∧ (2 ^ 64 ≤ limit → granted before (.static size align) = .exhausted
            ∧ after (before ++ [.static size align]) = after before))
    -- A blob keeps its bytes, and its name is given to no other.
    ∧ ∀ {before later : List Request} {bytes id}, history = before ++ .blob bytes :: later →
        granted before (.blob bytes) = .blob id → (after history).constants.get? id = some bytes
          ∧ ∀ {between rest : List Request} {bytes' id'},
              later = between ++ .blob bytes' :: rest →
              granted (before ++ .blob bytes :: between) (.blob bytes') = .blob id' → id' ≠ id := by
  refine ⟨fun known => after_sound modest known, ?_, ?_, ?_, dvd_alignUp _ _, ?_, ?_, ?_⟩
  · rintro before later frame n rfl known
    exact (after_grows before later).frames known
  · rintro before later frame size slot rfl given
    obtain ⟨offset, n, rfl, known, known', inside⟩ := slot_granted given later
    have sound : (after before).Sound := after_sound fun r member => modest r (by simp [member])
    refine ⟨offset, n, rfl, (sound known).1, known', inside, ?_, ?_⟩
    · rintro earlier between taken rfl started
      obtain ⟨n₀, known₀, le⟩ := frame_granted (modest (.frame taken) (by simp)) started between
      obtain rfl := Option.mem_unique known known₀
      exact le
    · rintro between rest size' offset' rfl given'
      obtain ⟨offset₂, _, same, known₂, _⟩ := slot_granted given' []
      obtain ⟨_, n₁, _, _, known₁, inside₁⟩ := slot_granted given between
      cases same
      obtain rfl := Option.mem_unique known₁ known₂
      simp_all
  · rintro before later frame size rfl
    simp only [granted, after_concat]
    obtain ⟨missing, same⟩ | ⟨offset, known, rest⟩ := serve_slot (after before) frame size
    · simp [missing, same]
    · split at rest <;> simp_all [maxFrameSize, wordSize]
  · rintro before later size align offset rfl given
    obtain ⟨aligned, _, inside⟩ := static_granted given later
    refine ⟨aligned, inside.trans (le_alignUp _ (by decide)), ?_⟩
    rintro between rest size' align' offset' rfl given'
    exact (static_granted given between).2.2.trans (static_granted given' []).2.1
  · rintro before later size align rfl limit
    obtain ⟨offset, aligned, rest⟩ := serve_static (after before) size align
    have limit_eq : limit = offset + max size 1 := by rw [← aligned, wordSize]
    simp only [granted, after_concat, limit_eq]
    split at rest <;> rw [rest]
    · next fits => exact ⟨fun _ => ⟨offset, rfl⟩, fun large => absurd fits (not_lt.mpr large)⟩
    · next large => exact ⟨fun small => absurd small large, fun _ => ⟨rfl, rfl⟩⟩
  · rintro before later bytes id rfl given
    refine ⟨(blob_granted given later).2, ?_⟩
    rintro between rest bytes' id' rfl given' rfl
    cases (blob_granted given' []).1.symm.trans (blob_granted given between).2

def mixedRequests : List Request :=
  [.frame 12, .slot ⟨0⟩ 4, .static 1 1, .slot ⟨0⟩ 16, .static 8 8, .blob [1], .slot ⟨9⟩ 8]

/-- The second slot lies behind the first. -/
theorem storage_handed_out_once_mixed : (∀ request ∈ mixedRequests, request.IsModest)
      ∧ granted [.frame 12] (.slot ⟨0⟩ 4) = .slot (.inFrame ⟨0⟩ 16)
      ∧ granted [.frame 12, .slot ⟨0⟩ 4, .static 1 1] (.slot ⟨0⟩ 16) = .slot (.inFrame ⟨0⟩ 24)
      ∧ 16 + max 4 1 ≤ 24 := by
  have modest : ∀ request ∈ mixedRequests, request.IsModest := by
    simp [mixedRequests, Request.IsModest]
  have first : granted [.frame 12] (.slot ⟨0⟩ 4) = .slot (.inFrame ⟨0⟩ 16) := rfl
  have second : granted ([.frame 12] ++ .slot ⟨0⟩ 4 :: [.static 1 1]) (.slot ⟨0⟩ 16)
    = .slot (.inFrame ⟨0⟩ 24) := by cbv
  obtain ⟨_, _, slots, _⟩ := storage_handed_out_once modest
  obtain ⟨offset, _, same, _, _, _, _, apart⟩ := @slots [.frame 12] _ ⟨0⟩ 4 _ rfl first
  cases same
  exact ⟨modest, first, second, @apart [.static 1 1] _ 16 24 rfl second⟩

end Areas

end RegisterBackend
