import Mathlib.Algebra.Group.Nat.Defs
import Mathlib.Data.List.Basic
import Mathlib.Tactic.Ring

/-! # Messages in blocks

A message is cut into whole blocks, and what is left over is shorter than a block.  A message
that comes in pieces is cut where the whole message is: the left over items of one piece go
before the next.
-/

namespace Plibsys.Support

variable {α σ : Type}

/-- The whole blocks of a message. -/
def blocks (size : Nat) (message : List α) : List (List α) :=
  (List.range (message.length / size)).map fun i => (message.drop (i * size)).take size

/-- What the whole blocks leave over. -/
def leftover (size : Nat) (message : List α) : List α := message.drop (message.length / size * size)

variable {size : Nat} {front message piece : List α}

theorem length_leftover (message : List α) : (leftover size message).length = message.length % size := by
  rw [leftover, List.length_drop, Nat.mod_eq_sub_div_mul]

theorem blocks_of_lt (short : message.length < size) : blocks size message = [] := by
  rw [blocks, Nat.div_eq_of_lt short]
  rfl

theorem length_of_mem_blocks {block : List α} (mem : block ∈ blocks size message) : block.length = size := by
  obtain ⟨i, inside, rfl⟩ := List.mem_map.mp mem
  have whole : (i + 1) * size ≤ message.length / size * size :=
    Nat.mul_le_mul_right size (List.mem_range.mp inside)
  have within := Nat.div_mul_le_self message.length size
  rw [Nat.succ_mul] at whole
  rw [List.length_take, List.length_drop]
  omega

theorem leftover_of_lt (short : message.length < size) : leftover size message = message := by
  rw [leftover, Nat.div_eq_of_lt short, Nat.zero_mul, List.drop_zero]

/-- The first block. -/
theorem blocks_of_le (positive : 0 < size) (long : size ≤ message.length) :
    blocks size message = message.take size :: blocks size (message.drop size) := by
  have split : message.length / size = (message.drop size).length / size + 1 := by
    rw [List.length_drop, ← Nat.add_div_right _ positive, Nat.sub_add_cancel long]
  rw [blocks, split, List.range_succ_eq_map, List.map_cons, List.map_map]
  congr 1
  · rw [Nat.zero_mul, List.drop_zero]
  · apply List.map_congr_left
    intro i _
    rw [Function.comp_apply, List.drop_drop, Nat.succ_mul, Nat.add_comm]

theorem leftover_of_le (positive : 0 < size) (long : size ≤ message.length) :
    leftover size message = leftover size (message.drop size) := by
  have split : message.length / size = (message.drop size).length / size + 1 := by
    rw [List.length_drop, ← Nat.add_div_right _ positive, Nat.sub_add_cancel long]
  rw [leftover, leftover, split, List.drop_drop, Nat.succ_mul, Nat.add_comm]

/-- A block in front of a message. -/
theorem blocks_cons (positive : 0 < size) (whole : front.length = size) :
    blocks size (front ++ message) = front :: blocks size message := by
  rw [blocks_of_le positive (by rw [List.length_append]; omega), List.take_left' whole, List.drop_left' whole]

theorem leftover_cons (positive : 0 < size) (whole : front.length = size) :
    leftover size (front ++ message) = leftover size message := by
  rw [leftover_of_le positive (by rw [List.length_append]; omega), List.drop_left' whole]

/-- The blocks of a message and a further piece: the piece goes on where the message was cut. -/
theorem blocks_append (positive : 0 < size) (message piece : List α) :
    blocks size (message ++ piece) = blocks size message ++ blocks size (leftover size message ++ piece) := by
  induction h : message.length using Nat.strong_induction_on generalizing message with
  | _ n ih =>
      by_cases long : size ≤ message.length
      · rw [blocks_of_le positive long, leftover_of_le positive long, List.cons_append,
          ← ih _ (by rw [← h, List.length_drop]; omega) _ rfl, ← blocks_cons positive (List.length_take_of_le long),
          ← List.append_assoc, List.take_append_drop]
      · rw [blocks_of_lt (show message.length < size by omega), leftover_of_lt (show message.length < size by omega)]
        rfl

theorem leftover_append (positive : 0 < size) (message piece : List α) :
    leftover size (message ++ piece) = leftover size (leftover size message ++ piece) := by
  induction h : message.length using Nat.strong_induction_on generalizing message with
  | _ n ih =>
      by_cases long : size ≤ message.length
      · have cut : message ++ piece = message.take size ++ (message.drop size ++ piece) := by
          rw [← List.append_assoc, List.take_append_drop]
        rw [cut, leftover_cons positive (List.length_take_of_le long), leftover_of_le positive long,
          ih _ (by rw [← h, List.length_drop]; omega) _ rfl]
      · rw [leftover_of_lt (show message.length < size by omega)]

/-! ## Absorbing a message -/

/-- A state takes in the whole blocks of a message. -/
def absorb (size : Nat) (step : σ → List α → σ) (start : σ) (message : List α) : σ :=
  (blocks size message).foldl step start

variable {step : σ → List α → σ} {start : σ}

theorem absorb_short (short : message.length < size) : absorb size step start message = start := by
  rw [absorb, blocks_of_lt short, List.foldl_nil]

theorem absorb_cons (positive : 0 < size) (whole : front.length = size) :
    absorb size step start (front ++ message) = absorb size step (step start front) message := by
  rw [absorb, absorb, blocks_cons positive whole, List.foldl_cons]

theorem absorb_block (positive : 0 < size) (whole : front.length = size) :
    absorb size step start front = step start front := by
  rw [← List.append_nil front, absorb_cons positive whole, absorb_short positive, List.append_nil]

/-- A further piece goes on where the message was cut. -/
theorem absorb_append (positive : 0 < size) (message piece : List α) :
    absorb size step start (message ++ piece) =
      absorb size step (absorb size step start message) (leftover size message ++ piece) := by
  rw [absorb, absorb, absorb, blocks_append positive, List.foldl_append]

/-- What each piece of a message carries on, all of them carry on. -/
theorem foldl_pieces {knows : σ → List α → Prop} {update : σ → List α → σ} {pieces : List (List α)} {c : σ}
    (carries : ∀ c message, ∀ piece ∈ pieces, knows c message → knows (update c piece) (message ++ piece))
    (known : knows c message) : knows (pieces.foldl update c) (message ++ pieces.flatten) := by
  induction pieces generalizing c message with
  | nil => simpa using known
  | cons piece pieces ih =>
      rw [List.foldl_cons, List.flatten_cons, ← List.append_assoc]
      exact ih (fun c message later inside => carries c message later (List.mem_cons_of_mem piece inside))
        (carries c message piece List.mem_cons_self known)

/-! ## Counters in two words -/

/-- A number is added to a number of two digits, with a carry by hand. -/
theorem carry_add {base high low total n : Nat} (lowSmall : low < base) (highSmall : high < base) (small : n < base)
    (counted : high * base + low = total % (base * base)) :
    (if (low + n) % base < n then (high + 1) % base else high) * base + (low + n) % base =
      (total + n) % (base * base) := by
  have square : high * base + base ≤ base * base := by
    rw [← Nat.succ_mul]
    exact Nat.mul_le_mul_right base highSmall
  rw [← Nat.mod_add_mod total, ← counted]
  by_cases overflow : low + n < base
  · rw [Nat.mod_eq_of_lt overflow, if_neg (by omega), Nat.add_assoc, Nat.mod_eq_of_lt (by omega)]
  · have carried : (low + n) % base = low + n - base := by
      rw [Nat.mod_eq_sub_mod (by omega), Nat.mod_eq_of_lt (by omega)]
    rw [carried, if_pos (by omega)]
    by_cases last : high + 1 = base
    · rw [last, Nat.mod_self, Nat.zero_mul, Nat.zero_add]
      have top : high * base + base = base * base := by rw [← Nat.succ_mul, Nat.succ_eq_add_one, last]
      rw [show high * base + low + n = base * base + (low + n - base) by omega, Nat.add_mod_left,
        Nat.mod_eq_of_lt (by omega)]
    · rw [Nat.mod_eq_of_lt (by omega), Nat.succ_mul]
      have below : high * base + base + base ≤ base * base := by
        rw [← Nat.succ_mul, ← Nat.succ_mul]
        exact Nat.mul_le_mul_right base (by omega)
      rw [Nat.mod_eq_of_lt (by omega)]
      omega

end Plibsys.Support
