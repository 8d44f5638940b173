import Plibsys.Shm.Fifo

/-! # The ring size of a handle

`zshm_buffer_new` opens an existing segment at the size that is asked for when this is
smaller, and the handle takes its ring size from there.  Handles agree on the ring only
when no later call asks for less than the call that created the segment.
-/

namespace Plibsys.Shm

open Support

/-- A call of `zshm_buffer_new`. -/
structure OpenCall where
  calls : ShmCalls
  mallocBuffer : Bool
  size : PSize

/-- Successful calls of `zshm_buffer_new` for one name. -/
def openBuffers (platformKey : String → String) (name : String) :
    List OpenCall → Objects → Option (List PShmBuffer × Objects)
  | [], objects => some ([], objects)
  | call :: later, objects =>
      match zshmBufferNew platformKey call.calls call.mallocBuffer name call.size objects with
      | (.error _, _) => none
      | (.ok buf, objects) => (openBuffers platformKey name later objects).map fun (bufs, objects) =>
          (buf :: bufs, objects)

/-- Reads and writes through the handles, in any order, see a queue. -/
def KeepsFifo (n : Nat) (bufs : List PShmBuffer) (segment : Region) : Prop :=
  ∀ calls : List (PShmBuffer × BufferOp), (∀ call ∈ calls, call.1 ∈ bufs ∧ call.2.Valid) →
    ∀ fuel ≥ 2 ^ 31, ∃ history mem, runCalls fuel calls segment = .ok (history, mem) ∧
      (Flow.of history).Fifo n mem

/-- The request leaves the size of the existing segment in force. -/
def Compatible (creating later : PSize) : Prop :=
  segmentSize later = 0 ∨ segmentSize creating ≤ segmentSize later

section Opening

variable {platformKey : String → String} {calls : ShmCalls} {name : String} {size : PSize}
variable {perms : PShmAccessPerms} {objects objects' : Objects} {shm shm' : PShm} {segment : Region}

theorem mapHandle_ok (mapped : mapHandle calls shm objects = (none, shm', objects')) :
    shm' = shm ∧ objects' = objects ∧ shm.size ≠ 0 := by
  unfold mapHandle ShmCalls.mmapError abandon at mapped
  grind

theorem createHandle_new (absent : objects shm.platformKey = none)
    (created : pzshmCreateHandle calls shm objects = (none, shm', objects')) :
    shm'.size = shm.size ∧ shm.size ≠ 0 ∧ 0 ≤ shm.size.toInt ∧
      objects' = Function.update objects shm.platformKey (some (Region.zeros shm.size.toNat)) := by
  unfold pzshmCreateHandle at created
  cases opened : calls.shmOpen with
  | some e => simp [opened, abandon] at created
  | none =>
      simp only [opened, absent] at created
      cases truncated : calls.ftruncateError shm.size with
      | some e => simp [truncated, abandon] at created
      | none =>
          simp only [truncated] at created
          obtain ⟨rfl, rfl, nonzero⟩ := mapHandle_ok created
          have positive : 0 ≤ shm.size.toInt := by
            unfold ShmCalls.ftruncateError at truncated
            grind
          exact ⟨rfl, nonzero, positive, rfl⟩

theorem createHandle_existing (present : objects shm.platformKey = some segment)
    (created : pzshmCreateHandle calls shm objects = (none, shm', objects')) :
    shm'.size = BitVec.ofNat 64 segment.size ∧ objects' = objects := by
  unfold pzshmCreateHandle at created
  cases opened : calls.shmOpen with
  | some e => simp [opened, abandon] at created
  | none =>
      simp only [opened, present] at created
      split at created
      · simp [abandon] at created
      · simp [abandon] at created
      · obtain ⟨rfl, rfl, -⟩ := mapHandle_ok created
        exact ⟨rfl, rfl⟩

/-- A successful `zshm_new` has made its handle and narrowed it to a smaller request. -/
theorem zshmNew_ok (opened : zshmNew platformKey calls name size perms objects = (.ok shm, objects')) :
    ∃ shm', pzshmCreateHandle calls ⟨false, platformKey (name ++ "_zshm_object"), size, perms⟩ objects =
        (none, shm', objects') ∧
      shm.size = if shm'.size > size ∧ size ≠ 0 then size else shm'.size := by
  unfold zshmNew at opened
  split at opened
  · cases opened
  · split at opened
    · cases opened
    · split at opened
      · cases opened
      · split at opened
        · cases opened
        · rename_i shm' _ made
          cases opened
          refine ⟨shm', made, ?_⟩
          split <;> rfl

/-- A successful `zshm_buffer_new` takes its ring size from the segment it opened. -/
theorem zshmBufferNew_ok {mallocBuffer : Bool} {buf : PShmBuffer}
    (opened : zshmBufferNew platformKey calls mallocBuffer name size objects = (.ok buf, objects')) :
    zshmNew platformKey calls name (segmentSize size) .readwrite objects = (.ok buf.shm, objects') := by
  unfold zshmBufferNew at opened
  split at opened
  · cases opened
  · rename_i shm _ made
    split at opened
    · split at opened
      · cases opened
        exact made
      · cases opened
    · cases opened

/-- The creating call makes a zeroed segment of the size it asks for. -/
theorem open_new {mallocBuffer : Bool} {buf : PShmBuffer}
    (absent : objects (platformKey (name ++ "_zshm_object")) = none)
    (opened : zshmBufferNew platformKey calls mallocBuffer name size objects = (.ok buf, objects')) :
    buf.shm.size = segmentSize size ∧ (segmentSize size).toNat < 2 ^ 63 ∧
      objects' (platformKey (name ++ "_zshm_object")) = some (Region.zeros (segmentSize size).toNat) := by
  obtain ⟨shm', made, sizeEq⟩ := zshmNew_ok (zshmBufferNew_ok opened)
  obtain ⟨same, -, positive, objectsEq⟩ := createHandle_new absent made
  refine ⟨?_, ?_, ?_⟩
  · rw [sizeEq, same]
    split <;> rfl
  · rw [BitVec.toInt_eq_toNat_cond] at positive
    have bound := (segmentSize size).isLt
    grind
  · rw [objectsEq, Function.update_self]

/-- A later call leaves the segment alone. -/
theorem open_existing {mallocBuffer : Bool} {buf : PShmBuffer}
    (present : objects (platformKey (name ++ "_zshm_object")) = some segment)
    (opened : zshmBufferNew platformKey calls mallocBuffer name size objects = (.ok buf, objects')) :
    objects' = objects ∧
      buf.shm.size = if BitVec.ofNat 64 segment.size > segmentSize size ∧ segmentSize size ≠ 0
        then segmentSize size else BitVec.ofNat 64 segment.size := by
  obtain ⟨shm', made, sizeEq⟩ := zshmNew_ok (zshmBufferNew_ok opened)
  obtain ⟨same, objectsEq⟩ := createHandle_existing present made
  rw [same] at sizeEq
  exact ⟨objectsEq, sizeEq⟩

/-- The size of the segment as a handle opened later sees it. -/
def seenSize (existing : PSize) (call : OpenCall) : PSize :=
  if existing > segmentSize call.size ∧ segmentSize call.size ≠ 0 then segmentSize call.size else existing

theorem open_later {existing : PSize} {later : List OpenCall} {bufs : List PShmBuffer}
    (present : objects (platformKey (name ++ "_zshm_object")) = some (Region.zeros existing.toNat))
    (opened : openBuffers platformKey name later objects = some (bufs, objects')) :
    objects' = objects ∧ bufs.map (fun buf => buf.shm.size) = later.map (seenSize existing) := by
  induction later generalizing bufs with
  | nil =>
      cases opened
      exact ⟨rfl, rfl⟩
  | cons call later ih =>
      unfold openBuffers at opened
      split at opened
      · cases opened
      · rename_i buf objects₁ made
        obtain ⟨rfl, sizeEq⟩ := open_existing present made
        obtain ⟨⟨rest, objects₂⟩, openedRest, eq⟩ := Option.map_eq_some_iff.mp opened
        cases eq
        obtain ⟨objectsEq, sizes⟩ := ih openedRest
        refine ⟨objectsEq, ?_⟩
        rw [List.map_cons, List.map_cons, sizes, sizeEq]
        simp [seenSize, Region.zeros]

theorem seenSize_eq_iff {creating : PSize} {call : OpenCall} :
    seenSize (segmentSize creating) call = segmentSize creating ↔ Compatible creating call.size := by
  unfold seenSize Compatible
  generalize segmentSize creating = existing, segmentSize call.size = requested
  split
  · rename_i narrowed
    obtain ⟨smaller, nonzero⟩ := narrowed
    constructor
    · intro same
      exact Or.inr (BitVec.le_of_eq same.symm)
    · rintro (zero | enough)
      · exact absurd zero nonzero
      · bv_omega
  · rename_i kept
    refine ⟨fun _ => ?_, fun _ => rfl⟩
    by_cases zero : requested = 0
    · exact Or.inl zero
    · exact Or.inr (BitVec.not_lt.mp fun smaller => kept ⟨smaller, zero⟩)

theorem size_eq_iff {buf buf' : PShmBuffer} : buf.size = buf'.size ↔ buf.shm.size = buf'.shm.size := by
  rw [buf.size_eq, buf'.size_eq]
  bv_omega

/-- Handles of one ring size on the zeroed segment of the creating call. -/
theorem keepsFifo_of_agree {creating : PSize} {first : PShmBuffer} {bufs : List PShmBuffer}
    (firstSize : first.shm.size = segmentSize creating) (bounded : (segmentSize creating).toNat < 2 ^ 63)
    (agree : ∀ buf ∈ bufs, buf.size = first.size) :
    KeepsFifo first.size.toNat bufs (Region.zeros (segmentSize creating).toNat) := by
  intro calls through fuel enough
  have large := first.large
  have total : first.shm.size.toNat = dataOffset + first.size.toNat := PShmBuffer.shmSize_eq rfl
  rw [← firstSize] at bounded ⊢
  have ready : Ready first.size.toNat (Region.zeros first.shm.size.toNat) :=
    ready_zeros (by omega) (by omega) (Nat.le_of_eq total.symm)
  have empty : (Flow.mk [] []).Fifo first.size.toNat (Region.zeros first.shm.size.toNat) := held_zeros _ _
  obtain ⟨history, mem, ran, -, fifo⟩ := runCalls_fifo ready
    (fun call inside => congrArg BitVec.toNat (agree call.1 (through call inside).1))
    (fun call inside => (through call inside).2) enough empty
  exact ⟨history, mem, ran, fifo⟩

end Opening

/-- After successful calls for one name, of which the first created the segment, the
    handles agree on the ring size and reads and writes through them see a queue exactly
    when no later call asked for a smaller segment. -/
theorem ring_sizes_agree_iff {platformKey : String → String} {name : String} {objects objects' : Objects}
    {creating : OpenCall} {later : List OpenCall} {first : PShmBuffer} {rest : List PShmBuffer}
    (absent : objects (platformKey (name ++ "_zshm_object")) = none)
    (opened : openBuffers platformKey name (creating :: later) objects = some (first :: rest, objects')) :
    ∃ segment, objects' (platformKey (name ++ "_zshm_object")) = some segment ∧
      ((∀ buf ∈ first :: rest, buf.size = first.size) ∧
          KeepsFifo first.size.toNat (first :: rest) segment ↔
        ∀ call ∈ later, Compatible creating.size call.size) := by
  unfold openBuffers at opened
  split at opened
  · cases opened
  · rename_i buf objects₁ made
    obtain ⟨⟨bufs, objects₂⟩, openedRest, eq⟩ := Option.map_eq_some_iff.mp opened
    cases eq
    obtain ⟨firstSize, bounded, present⟩ := open_new absent made
    obtain ⟨rfl, sizes⟩ := open_later present openedRest
    have agreeIff : (∀ buf ∈ first :: rest, buf.size = first.size) ↔
        ∀ call ∈ later, Compatible creating.size call.size := by
      calc (∀ buf ∈ first :: rest, buf.size = first.size)
          ↔ ∀ size ∈ rest.map (fun buf => buf.shm.size), size = segmentSize creating.size := by
            simp [size_eq_iff, firstSize]
        _ ↔ ∀ call ∈ later, Compatible creating.size call.size := by
            rw [sizes]
            simp [seenSize_eq_iff]
    refine ⟨_, present, ?_⟩
    rw [← agreeIff]
    exact ⟨fun both => both.1, fun agree => ⟨agree, keepsFifo_of_agree firstSize bounded agree⟩⟩

/-- Calls in which nothing fails. -/
def OpenCall.plain (size : PSize) : OpenCall :=
  ⟨⟨true, true, true, none, none, none, none, none, none⟩, true, size⟩

/-- The platform key of the name `ring`. -/
def ringKey : String → String := fun _ => "/a4028252d9245"

theorem ring_sizes_agree_iff_ring :
    ∃ first rest objects' segment,
      openBuffers ringKey "ring" [.plain 8, .plain 0, .plain 8, .plain 20] (fun _ => none) =
        some (first :: rest, objects') ∧
      objects' "/a4028252d9245" = some segment ∧ (∀ buf ∈ first :: rest, buf.size = first.size) ∧
      KeepsFifo first.size.toNat (first :: rest) segment := by
  have opened : openBuffers ringKey "ring" [.plain 8, .plain 0, .plain 8, .plain 20] (fun _ => none) =
      some (_ :: _, _) := rfl
  have compatible : ∀ call ∈ [OpenCall.plain 0, .plain 8, .plain 20], Compatible 8 call.size := by
    simp only [List.mem_cons, List.not_mem_nil, or_false, forall_eq_or_imp, forall_eq]
    exact ⟨Or.inl (by decide), Or.inr (by decide), Or.inr (by decide)⟩
  obtain ⟨segment, present, agree⟩ := ring_sizes_agree_iff rfl opened
  exact ⟨_, _, _, segment, opened, present, agree.mpr compatible⟩

/-- The bytes returned and written in a run that answers. -/
def flowsOf (ran : Exec (List (BufferOp × Reply) × Region)) : Option (List Byte × List Byte) :=
  match ran with
  | .ok (history, _) => some ((Flow.of history).returned, (Flow.of history).written)
  | .error _ => none

/-- A handle opened with a smaller size sees a smaller ring, and returns bytes that were
    not written in that order. -/
theorem ring_sizes_disagree :
    ∃ first second objects' segment,
      openBuffers ringKey "ring" [.plain 8, .plain 4] (fun _ => none) =
        some ([first, second], objects') ∧
      objects' "/a4028252d9245" = some segment ∧ second.size ≠ first.size ∧
      ∃ returned written,
        flowsOf (runCalls 20 [(first, .write [1, 2, 3, 4, 5, 6]), (second, .read (Region.zeros 8))] segment) =
          some (returned, written) ∧ ¬ returned <+: written := by
  refine ⟨_, _, _, _, rfl, rfl, by decide, [1, 2, 3, 4, 5, 1], [1, 2, 3, 4, 5, 6], ?_, by decide⟩
  decide +kernel

end Plibsys.Shm
