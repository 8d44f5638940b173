import Plibsys.Support.BlockStream

/-! # A buffer in front of a block function

A context takes in whole blocks and keeps what they leave over in its buffer.  A few laws of
its moves are enough for an update with any piece of data to go on where the message was cut.
-/

namespace Plibsys.Support

variable {C α σ τ : Type}

/-- What a context consists of, and its moves: a piece that completes the block in the buffer,
    a loop over whole blocks, and a piece that is kept in the buffer. -/
structure Buffering (C α σ : Type) where
  size : Nat
  step : σ → List α → σ
  usable : C → Prop
  state : C → σ
  buffer : C → List α
  fill : C → Nat → List α → C
  loop : C → List α → C × List α
  keep : C → Nat → List α → C

namespace Buffering

variable (moves : Buffering C α σ)

structure Lawful : Prop where
  positive : 0 < moves.size
  usable_fill : ∀ {c} (left piece), moves.usable c → moves.usable (moves.fill c left piece)
  usable_keep : ∀ {c} (left piece), moves.usable c → moves.usable (moves.keep c left piece)
  state_fill : ∀ {c left piece}, moves.usable c → left + piece.length = moves.size →
    moves.state (moves.fill c left piece) = moves.step (moves.state c) ((moves.buffer c).take left ++ piece)
  state_keep : ∀ c left piece, moves.state (moves.keep c left piece) = moves.state c
  buffer_keep : ∀ {c left piece}, moves.usable c → left + piece.length ≤ moves.size →
    (moves.buffer (moves.keep c left piece)).take (left + piece.length) = (moves.buffer c).take left ++ piece
  loop_eq : ∀ {c} (data), moves.usable c → moves.loop c data =
    if moves.size ≤ data.length then moves.loop (moves.fill c 0 (data.take moves.size)) (data.drop moves.size)
    else (c, data)

/-- An update of a context with `left` items in its buffer; `n` stands for the length of the data
    in the test for a block that can be completed. -/
def update (c : C) (left n : Nat) (data : List α) : C :=
  if left ≠ 0 ∧ moves.size - left ≤ n then
    let rest := moves.loop (moves.fill c left (data.take (moves.size - left))) (data.drop (moves.size - left))
    moves.keep rest.1 0 rest.2
  else
    let rest := moves.loop c data
    moves.keep rest.1 left rest.2

/-- What a context knows of the message so far. -/
structure Holds (start : σ) (c : C) (message : List α) : Prop where
  usable : moves.usable c
  state : moves.state c = absorb moves.size moves.step start message
  buffered : (moves.buffer c).take (message.length % moves.size) = leftover moves.size message

variable {moves} (lawful : moves.Lawful) {start : σ} {c : C} {message : List α} (data : List α)

include lawful

/-! ## The loop -/

/-- The loop takes in the whole blocks and leaves the rest. -/
theorem Lawful.loop (usable : moves.usable c) :
    (moves.loop c data).2 = leftover moves.size data ∧
      moves.state (moves.loop c data).1 = absorb moves.size moves.step (moves.state c) data ∧
      moves.usable (moves.loop c data).1 := by
  induction h : data.length using Nat.strong_induction_on generalizing c data with
  | _ n ih =>
      rw [lawful.loop_eq data usable]
      split
      · next long =>
          have positive := lawful.positive
          have whole := List.length_take_of_le long
          obtain ⟨rest, state, still⟩ := ih (data.drop moves.size).length (by rw [← h, List.length_drop]; omega)
            (data.drop moves.size) (lawful.usable_fill 0 (data.take moves.size) usable) rfl
          have filled := lawful.state_fill usable ((Nat.zero_add _).trans whole)
          rw [List.take_zero, List.nil_append] at filled
          refine ⟨rest.trans (leftover_of_le positive long).symm, ?_, still⟩
          rw [state, filled, ← absorb_cons positive whole, List.take_append_drop]
      · next short =>
          have below : data.length < moves.size := by omega
          exact ⟨(leftover_of_lt below).symm, (absorb_short below).symm, usable⟩

/-- What filling the buffer does not change, the loop does not change. -/
theorem Lawful.loop_frame {frame : C → τ} (same : ∀ c left piece, frame (moves.fill c left piece) = frame c)
    (usable : moves.usable c) : frame (moves.loop c data).1 = frame c := by
  induction h : data.length using Nat.strong_induction_on generalizing c data with
  | _ n ih =>
      rw [lawful.loop_eq data usable]
      split
      · next long =>
          have positive := lawful.positive
          exact (ih (data.drop moves.size).length (by rw [← h, List.length_drop]; omega)
            (data.drop moves.size) (lawful.usable_fill 0 (data.take moves.size) usable) rfl).trans (same _ _ _)
      · rfl

/-! ## Updates -/

/-- A context that has taken in whole blocks, and the rest of the data. -/
theorem Holds.rest (usable : moves.usable c) (state : moves.state c = absorb moves.size moves.step start message)
    (whole : leftover moves.size message = []) :
    moves.Holds start (moves.keep (moves.loop c data).1 0 (moves.loop c data).2) (message ++ data) := by
  have positive := lawful.positive
  obtain ⟨rest, taken, still⟩ := lawful.loop data usable
  have left : leftover moves.size (message ++ data) = leftover moves.size data := by
    rw [leftover_append positive, whole, List.nil_append]
  have short : (leftover moves.size data).length ≤ moves.size := by
    rw [length_leftover]
    exact (Nat.mod_lt _ positive).le
  refine ⟨lawful.usable_keep _ _ still, ?_, ?_⟩
  · rw [lawful.state_keep, taken, state, absorb_append positive, whole, List.nil_append]
  · rw [← length_leftover, left, rest, ← Nat.zero_add (leftover moves.size data).length,
      lawful.buffer_keep still (by omega), List.take_zero, List.nil_append]

/-- A piece that does not complete the block goes into the buffer. -/
theorem Holds.short (holds : moves.Holds start c message)
    (short : message.length % moves.size + data.length < moves.size) :
    moves.Holds start (moves.keep (moves.loop c data).1 (message.length % moves.size) (moves.loop c data).2)
      (message ++ data) := by
  have positive := lawful.positive
  have nothing : moves.loop c data = (c, data) := by rw [lawful.loop_eq data holds.usable, if_neg (by omega)]
  have inside : (leftover moves.size message ++ data).length < moves.size := by
    rw [List.length_append, length_leftover]
    exact short
  rw [nothing]
  refine ⟨lawful.usable_keep _ _ holds.usable, ?_, ?_⟩
  · rw [lawful.state_keep, holds.state, absorb_append positive, absorb_short inside]
  · rw [← length_leftover, leftover_append positive, leftover_of_lt inside, List.length_append, length_leftover,
      lawful.buffer_keep holds.usable (by omega), holds.buffered]

/-- A piece that completes the block: the message so far and that piece are whole blocks. -/
theorem Holds.fill (holds : moves.Holds start c message) (piece : message.length % moves.size + data.length = moves.size) :
    moves.state (moves.fill c (message.length % moves.size) data) =
        absorb moves.size moves.step start (message ++ data) ∧
      leftover moves.size (message ++ data) = [] := by
  have positive := lawful.positive
  have first : (leftover moves.size message ++ data).length = moves.size := by
    rw [List.length_append, length_leftover, piece]
  constructor
  · rw [lawful.state_fill holds.usable piece, holds.state, holds.buffered, absorb_append positive,
      absorb_block positive first]
  · rw [leftover_append positive, ← List.append_nil (leftover moves.size message ++ data), leftover_cons positive first]
    exact leftover_of_lt positive

/-- An update goes on with the message, unless the test keeps it from completing a block. -/
theorem Holds.update (holds : moves.Holds start c message) {n : Nat} (within : n ≤ data.length)
    (on : message.length % moves.size = 0 ∨ data.length < moves.size - message.length % moves.size ∨
      moves.size - message.length % moves.size ≤ n) :
    moves.Holds start (moves.update c (message.length % moves.size) n data) (message ++ data) := by
  have inside := Nat.mod_lt message.length lawful.positive
  rw [Buffering.update]
  split
  · next fills =>
      have piece := List.length_take_of_le (fills.2.trans within)
      obtain ⟨state, whole⟩ := Holds.fill lawful (data.take (moves.size - message.length % moves.size)) holds (by omega)
      have rest := Holds.rest lawful (data.drop (moves.size - message.length % moves.size))
        (lawful.usable_fill _ _ holds.usable) state whole
      rwa [List.append_assoc, List.take_append_drop] at rest
  · next other =>
      by_cases begun : message.length % moves.size = 0
      · have whole : leftover moves.size message = [] := by rw [← List.length_eq_zero_iff, length_leftover, begun]
        rw [begun]
        exact Holds.rest lawful data holds.usable holds.state whole
      · exact Holds.short lawful data holds (by omega)

/-- What the moves do not change, an update does not change. -/
theorem Lawful.update_frame {frame : C → τ} (fills : ∀ c left piece, frame (moves.fill c left piece) = frame c)
    (keeps : ∀ c left piece, frame (moves.keep c left piece) = frame c) (usable : moves.usable c) (left n : Nat) :
    frame (moves.update c left n data) = frame c := by
  rw [update]
  split
  · rw [keeps, lawful.loop_frame _ fills (lawful.usable_fill _ _ usable), fills]
  · rw [keeps, lawful.loop_frame _ fills usable]

end Buffering

end Plibsys.Support
