import Plibsys.Crypto.GostUpdates
import Plibsys.Crypto.Md5
import Plibsys.Crypto.Sha1
import Plibsys.Crypto.Sha2

/-! # Updates of any size

One update against two updates with the same bytes.  The code casts the length of the data to
32 bits where it counts the bytes and where it tests if the pending block can be completed, so
both can go wrong from 2^32 bytes on.
-/

namespace Plibsys.Crypto

open Support

/-! ## Hashes over blocks of sixteen words -/

section Stream

variable {w n : Nat} [NeZero w] {algorithm : BlockAlgorithm w n} {big : Bool}

/-- The number in the two words of the counter. -/
def counter (ctx : BlockContext w n) : Nat := ctx.lenHigh.toNat * 2 ^ w + ctx.lenLow.toNat

omit [NeZero w] in
theorem counter_lt (ctx : BlockContext w n) : counter ctx < 2 ^ w * 2 ^ w := by
  have high := Nat.mul_le_mul_right (2 ^ w) ctx.lenHigh.isLt
  have low := ctx.lenLow.isLt
  rw [Nat.succ_mul] at high
  unfold counter
  omega

omit [NeZero w] in
/-- The counter determines its two words. -/
theorem counter_inj {one two : BlockContext w n} (same : counter one = counter two) :
    one.lenHigh = two.lenHigh ∧ one.lenLow = two.lenLow := by
  have positive := Nat.two_pow_pos w
  have digits : ∀ ctx : BlockContext w n, counter ctx / 2 ^ w = ctx.lenHigh.toNat ∧ counter ctx % 2 ^ w = ctx.lenLow.toNat := by
    intro ctx
    rw [counter, Nat.mul_comm, Nat.mul_add_div positive, Nat.mul_add_mod, Nat.div_eq_of_lt ctx.lenLow.isLt, Nat.add_zero,
      Nat.mod_eq_of_lt ctx.lenLow.isLt]
    exact ⟨rfl, rfl⟩
  constructor <;> apply BitVec.eq_of_toNat_eq
  · rw [← (digits one).1, ← (digits two).1, same]
  · rw [← (digits one).2, ← (digits two).2, same]

/-- The same hash, counter and bytes in the buffer below the fill level. -/
structure SameState (one two : BlockContext w n) : Prop where
  hash : one.hash = two.hash
  lenHigh : one.lenHigh = two.lenHigh
  lenLow : one.lenLow = two.lenLow
  buffered : (unparse one.buf).take (one.lenLow.toNat % (2 * w)) = (unparse two.buf).take (two.lenLow.toNat % (2 * w))

/-- After a history of updates, one update and two updates with the same bytes leave the same
    state, and the counter is the number of all bytes. -/
def SplitsAlike {C : Type} (update : C → List Byte → C) (view : C → BlockContext w n) (start : C)
    (history : List (List Byte)) (data : List Byte) (k : Nat) : Prop :=
  let ctx := history.foldl update start
  SameState (view (update ctx data)) (view (update (update ctx (data.take k)) (data.drop k))) ∧
    counter (view (update ctx data)) = (history.flatten ++ data).length

theorem sum_mod_le (base : Nat) (chunks : List (List Byte)) :
    (chunks.map fun chunk => chunk.length % base).sum ≤ chunks.flatten.length := by
  induction chunks with
  | nil => exact Nat.le_refl 0
  | cons chunk chunks ih =>
      rw [List.map_cons, List.sum_cons, List.flatten_cons, List.length_append]
      exact Nat.add_le_add (Nat.mod_le _ _) ih

/-- Only lengths that are cut to themselves keep their sum. -/
theorem lt_of_sum_mod {base : Nat} (positive : 0 < base) {chunks : List (List Byte)}
    (same : (chunks.map fun chunk => chunk.length % base).sum = chunks.flatten.length) :
    ∀ chunk ∈ chunks, chunk.length < base := by
  induction chunks with
  | nil => exact fun chunk mem => absurd mem List.not_mem_nil
  | cons first chunks ih =>
      rw [List.map_cons, List.sum_cons, List.flatten_cons, List.length_append] at same
      have cut := Nat.mod_le first.length base
      have rest := sum_mod_le base chunks
      intro chunk mem
      obtain rfl | later := List.mem_cons.mp mem
      · have kept : chunk.length % base = chunk.length := by omega
        exact kept ▸ Nat.mod_lt chunk.length positive
      · exact ih (by omega) chunk later

variable (wide : w = 32 ∨ w = 64) (order : InByteOrder algorithm big)

include wide order

/-- An update adds the length as far as the cast keeps it. -/
theorem blockUpdate_counter (ctx : BlockContext w n) (data : List Byte) :
    counter (blockUpdate algorithm ctx data) = (counter ctx + data.length % 2 ^ w) % (2 ^ w * 2 ^ w) := by
  have cast : BitVec.ofNat w (data.length % 2 ^ w) = BitVec.ofNat w data.length := by
    apply BitVec.eq_of_toNat_eq
    rw [BitVec.toNat_ofNat, BitVec.toNat_ofNat, Nat.mod_mod]
  have counted := counted_update (Nat.mod_lt data.length (Nat.two_pow_pos w)) (by omega)
    (Nat.mod_eq_of_lt (counter_lt ctx)).symm
  rw [cast] at counted
  obtain ⟨high, low⟩ := counters_update (blockMoves_lawful wide order) ctx data
  rw [← counted, counter, high, low]
  rfl

theorem updates_counter (chunks : List (List Byte)) (ctx : BlockContext w n) :
    counter (chunks.foldl (blockUpdate algorithm) ctx) =
      (counter ctx + (chunks.map fun chunk => chunk.length % 2 ^ w).sum) % (2 ^ w * 2 ^ w) := by
  induction chunks generalizing ctx with
  | nil => exact (Nat.mod_eq_of_lt (counter_lt ctx)).symm
  | cons chunk chunks ih =>
      rw [List.foldl_cons, ih, blockUpdate_counter wide order, Nat.mod_add_mod, List.map_cons, List.sum_cons,
        Nat.add_assoc]

omit order [NeZero w] in
/-- Contexts that have chained the same message are in the same state. -/
theorem Chained.sameState {initial : Vector (BitVec w) n} {one two : BlockContext w n} {message : List Byte}
    (first : Chained algorithm big initial one message) (second : Chained algorithm big initial two message) :
    SameState one two := by
  obtain ⟨high, low⟩ := counter_inj (first.counted.trans second.counted.symm)
  have left : ∀ {ctx : BlockContext w n}, Chained algorithm big initial ctx message →
      ctx.lenLow.toNat % (2 * w) = message.length % (2 * w) := by
    intro ctx so
    have counted := so.counted
    obtain rfl | rfl := wide <;> omega
  refine ⟨first.hash.trans second.hash.symm, high, low, ?_⟩
  rw [left first, left second, first.buffered, second.buffered]

/-- The updates are alike just when no length is cut. -/
theorem splitsAlike_iff (initial : Vector (BitVec w) n) {history : List (List Byte)} {data : List Byte} (k : Nat)
    (below : (history.flatten ++ data).length < 2 ^ w * 2 ^ w) :
    SplitsAlike (blockUpdate algorithm) id (blockReset initial) history data k ↔
      ∀ chunk ∈ history ++ [data], chunk.length < 2 ^ w := by
  have reset : Chained algorithm big initial (blockReset initial) [] := chained_reset
  constructor
  · rintro ⟨-, counted⟩
    have ran := updates_counter wide order (history ++ [data]) (blockReset initial)
    have zero : counter (blockReset initial) = 0 := by simp [counter, blockReset]
    have whole : (history ++ [data]).flatten = history.flatten ++ data := by simp
    have less := (sum_mod_le (2 ^ w) (history ++ [data])).trans_lt (whole ▸ below)
    rw [List.foldl_append, List.foldl_cons, List.foldl_nil, zero, Nat.zero_add, Nat.mod_eq_of_lt less] at ran
    refine lt_of_sum_mod (Nat.two_pow_pos w) ?_
    rw [whole, ← counted, ← ran]
    rfl
  · intro fit
    have before := reset.updates wide order fun chunk mem => fit chunk (List.mem_append_left _ mem)
    have small := fit data (List.mem_append_right _ (List.mem_singleton.mpr rfl))
    have shorter := (List.length_take_le' k data).trans_lt small
    have rest : (data.drop k).length < 2 ^ w := by
      rw [List.length_drop]
      omega
    have one := before.update wide order small
    have two := (before.update wide order shorter).update wide order rest
    rw [List.append_assoc, List.take_append_drop] at two
    refine ⟨one.sameState wide two, ?_⟩
    have counted := one.counted
    rw [List.nil_append, Nat.mod_eq_of_lt below] at counted
    exact counted

end Stream

/-! ## GOST R 34.11-94 -/

namespace Gost3411

variable {ctx : PHashGOST3411} {message data : List Byte}

/-- The same hash, counter and bytes in the buffer below the fill level. -/
structure SameState (one two : PHashGOST3411) : Prop where
  hash : one.hash = two.hash
  len : one.len = two.len
  buffered : (unparse one.buf).take ((one.len.get 0 &&& 0xFF) >>> 3).toNat =
    (unparse two.buf).take ((two.len.get 0 &&& 0xFF) >>> 3).toNat

/-- The bytes of the whole blocks of a message. -/
def wholePart (message : List Byte) : List Byte := message.take (message.length / 32 * 32)

theorem length_wholePart (message : List Byte) : (wholePart message).length = message.length / 32 * 32 :=
  List.length_take_of_le (Nat.div_mul_le_self _ _)

theorem leftover_wholePart (message : List Byte) : leftover 32 (wholePart message) = [] := by
  rw [← List.length_eq_zero_iff, length_leftover, length_wholePart, Nat.mul_mod_left]

theorem absorb_wholePart (state : Vector (BitVec 32) 8 × Vector (BitVec 32) 8) (message : List Byte) :
    absorb 32 takeBlock state (wholePart message) = absorb 32 takeBlock state message := by
  have short : (leftover 32 message).length < 32 := by
    rw [length_leftover]
    exact Nat.mod_lt _ (by decide)
  have cut : wholePart message ++ leftover 32 message = message := List.take_append_drop _ _
  conv_rhs => rw [← cut, absorb_append (by decide), leftover_wholePart, List.nil_append, absorb_short short]

/-- Whatever the buffer holds below the fill level is the end of some message. -/
theorem absorbed_buffer {front : List Byte} {left : Nat} (whole : leftover 32 front = []) (short : left < 32)
    (len : block ctx.len = BitVec.ofNat 256 (8 * (front.length + left))) (state : (ctx.hash, ctx.sum) = taken front) :
    Absorbed ctx (front ++ (unparse ctx.buf).take left) := by
  have kept : ((unparse ctx.buf).take left).length = left :=
    List.length_take_of_le (by rw [length_unparse]; omega)
  have rest : leftover 32 (front ++ (unparse ctx.buf).take left) = (unparse ctx.buf).take left := by
    rw [leftover_append (by decide), whole, List.nil_append, leftover_of_lt (kept.trans_lt short)]
  refine ⟨?_, ?_, ?_⟩
  · rw [len, List.length_append, kept]
  · rw [state, taken_append, whole, List.nil_append, absorb_short (kept.trans_lt short)]
  · rw [← length_leftover, rest, kept]

theorem off_iff {left n : Nat} : ¬GoesOn left n ↔ left ≠ 0 ∧ 32 - left ≤ n ∧ n % 2 ^ 32 < 32 - left := by
  rw [GoesOn]
  omega

/-- An update that leaves out the block that is begun takes in whole blocks of its own data. -/
theorem Absorbed.update_off (so : Absorbed ctx message) (off : ¬GoesOn (message.length % 32) data.length) :
    zcryptoHashGost3411Update ctx data =
      gost3411KeepRest (gost3411UpdateLoop (countBits ctx data.length) data).1 (message.length % 32) (leftover 32 data) := by
  obtain ⟨-, -, low⟩ := off_iff.mp off
  obtain ⟨rest, -, -⟩ := gost3411Moves_lawful.loop data (c := countBits ctx data.length) trivial
  rw [gost3411Update_eq so.len, Buffering.update, if_neg fun fills => absurd fills.2 (Nat.not_le_of_lt low)]
  exact congrArg (gost3411Moves.keep (gost3411UpdateLoop (countBits ctx data.length) data).1 (message.length % 32)) rest

/-- After any update the context has taken in some message of the right length. -/
theorem Absorbed.update_any (so : Absorbed ctx message) (data : List Byte) (below : message.length + data.length < 2 ^ 61) :
    ∃ other, other.length = message.length + data.length ∧ Absorbed (zcryptoHashGost3411Update ctx data) other := by
  by_cases on : GoesOn (message.length % 32) data.length
  · exact ⟨message ++ data, List.length_append, so.update (by omega) (.inr below) on⟩
  · have next := len_update so.len (n := data.length) (by omega) (.inr below)
    obtain ⟨-, taken, -⟩ := gost3411Moves_lawful.loop data (c := countBits ctx data.length) trivial
    have front : (wholePart message ++ wholePart data).length + (message.length % 32 + data.length % 32) =
        message.length + data.length := by
      rw [List.length_append, length_wholePart, length_wholePart]
      omega
    have short : message.length % 32 + data.length % 32 < 32 := by
      obtain ⟨-, -, low⟩ := off_iff.mp on
      omega
    have nothing : leftover 32 (wholePart message ++ wholePart data) = [] := by
      rw [leftover_append (by decide), leftover_wholePart, List.nil_append, leftover_wholePart]
    refine ⟨_, ?_, absorbed_buffer nothing short ?_ ?_⟩
    · rw [List.length_append, List.length_take_of_le (by rw [length_unparse]; omega), front]
    · rw [gost3411Update_len so.len, front]
      exact next
    · have before : Gost3411.taken (wholePart message) = Gost3411.taken message := absorb_wholePart _ message
      rw [so.update_off on, keepRest_hash, keepRest_sum, taken_append, leftover_wholePart, List.nil_append,
        absorb_wholePart, before, ← so.taken]
      exact taken

/-- So in every run the contexts have taken in some message. -/
theorem Absorbed.updates_any (so : Absorbed ctx message) (chunks : List (List Byte))
    (below : message.length + chunks.flatten.length < 2 ^ 61) :
    ∃ other, other.length = message.length + chunks.flatten.length ∧
      Absorbed (chunks.foldl zcryptoHashGost3411Update ctx) other := by
  induction chunks generalizing ctx message with
  | nil => exact ⟨message, rfl, so⟩
  | cons chunk chunks ih =>
      rw [List.flatten_cons, List.length_append] at below ⊢
      obtain ⟨next, length, taken⟩ := so.update_any chunk (by omega)
      obtain ⟨other, total, last⟩ := ih taken (by omega)
      exact ⟨other, by omega, last⟩

/-- Contexts that have taken in the same message are in the same state. -/
theorem Absorbed.sameState {one two : PHashGOST3411} (first : Absorbed one message) (second : Absorbed two message) :
    SameState one two := by
  have len : one.len = two.len := by
    have same := first.len.trans second.len.symm
    apply Vector.ext
    intro i inside
    have words := congrArg (fun x => word 32 x i) same
    rwa [word_block one.len ⟨i, inside⟩, word_block two.len ⟨i, inside⟩] at words
  refine ⟨congrArg Prod.fst (first.taken.trans second.taken.symm), len, ?_⟩
  rw [(positions first.len []).1, (positions second.len []).1, first.buffered, second.buffered]

theorem Absorbed.two_updates (so : Absorbed ctx message) {k : Nat} (within : k ≤ data.length)
    (below : message.length + data.length < 2 ^ 61) (first : GoesOn (message.length % 32) k)
    (second : GoesOn ((message.length + k) % 32) (data.length - k)) :
    Absorbed (zcryptoHashGost3411Update (zcryptoHashGost3411Update ctx (data.take k)) (data.drop k)) (message ++ data) := by
  have taken := List.length_take_of_le within
  have begun : Absorbed (zcryptoHashGost3411Update ctx (data.take k)) (message ++ data.take k) :=
    so.update (by omega) (.inr (by omega)) (by rwa [taken])
  rw [← List.take_append_drop k data, ← List.append_assoc, List.take_append_drop]
  refine begun.update (by rw [List.length_drop]; omega) (.inr ?_) ?_
  · rw [List.length_append, taken, List.length_drop]
    omega
  · rwa [List.length_append, taken, List.length_drop]

/-- The loop of `update` leaves the last whole block in the buffer. -/
theorem updateLoop_buf (ctx : PHashGOST3411) {data : List Byte} (some : 32 ≤ data.length) :
    unparse (gost3411UpdateLoop ctx data).1.buf = (data.drop (data.length / 32 * 32 - 32)).take 32 := by
  induction h : data.length using Nat.strong_induction_on generalizing ctx data with
  | _ n ih =>
      have long : 32 ≤ data.length := some
      have whole := List.length_take_of_le long
      have copied := unparse_copy ctx.buf 0 (show 0 + (data.take 32).length = 32 by omega)
      rw [List.take_zero, List.nil_append] at copied
      rw [gost3411UpdateLoop, if_pos long]
      by_cases more : 32 ≤ (data.drop 32).length
      · rw [ih _ (by rw [List.length_drop]; omega) _ more rfl, List.drop_drop, ← h]
        congr 2
        rw [List.length_drop] at more ⊢
        omega
      · rw [gost3411UpdateLoop, if_neg more]
        rw [List.length_drop] at more
        have first : n / 32 * 32 - 32 = 0 := by omega
        rw [first, List.drop_zero]
        exact copied

/-- Bytes that are zero but for the last one before the end. -/
def marked (before after : Nat) : List Byte := List.replicate before 0 ++ 1 :: List.replicate after 0

theorem length_marked (before after : Nat) : (marked before after).length = before + 1 + after := by
  rw [marked, List.length_append, List.length_cons, List.length_replicate, List.length_replicate]
  omega

theorem marked_before {before i : Nat} (earlier : i < before) (after : Nat) : (marked before after)[i]? = some 0 := by
  rw [marked, List.getElem?_append_left (by rw [List.length_replicate]; exact earlier), List.getElem?_replicate,
    if_pos earlier]

theorem marked_at (before after : Nat) : (marked before after)[before]? = some 1 := by
  rw [marked, List.getElem?_append_right (by rw [List.length_replicate]), List.length_replicate, Nat.sub_self]
  rfl

/-- The bytes in the buffer after an update that leaves out the block that is begun. -/
theorem Absorbed.buf_off (so : Absorbed ctx message) (off : ¬GoesOn (message.length % 32) data.length) :
    (unparse (zcryptoHashGost3411Update ctx data).buf).take ((message.length + data.length) % 32) =
      (data.drop (data.length / 32 * 32 - 32)).take (message.length % 32) ++ leftover 32 data := by
  obtain ⟨begun, long, low⟩ := off_iff.mp off
  have fill : (message.length + data.length) % 32 = message.length % 32 + (leftover 32 data).length := by
    rw [length_leftover]
    omega
  rw [so.update_off off, fill, take_keepRest _ (by rw [length_leftover]; omega), updateLoop_buf _ (by omega),
    List.take_take, Nat.min_eq_left (by omega)]

/-- If the two parts go on and the whole does not, then some data leave different bytes in the
    buffer: where the last byte of the data before the rest should be, there is an earlier one. -/
theorem updates_differ (so : Absorbed ctx message) {n k : Nat} (within : k ≤ n) (below : message.length + n < 2 ^ 61)
    (whole : ¬GoesOn (message.length % 32) n) (first : GoesOn (message.length % 32) k)
    (second : GoesOn ((message.length + k) % 32) (n - k)) :
    ∃ data : List Byte, data.length = n ∧ ¬SameState (zcryptoHashGost3411Update ctx data)
      (zcryptoHashGost3411Update (zcryptoHashGost3411Update ctx (data.take k)) (data.drop k)) := by
  obtain ⟨begun, long, low⟩ := off_iff.mp whole
  have size : (marked (n - n % 2 ^ 32 - 1) (n % 2 ^ 32)).length = n := by
    rw [length_marked]
    omega
  generalize marks : marked (n - n % 2 ^ 32 - 1) (n % 2 ^ 32) = data at size
  subst size
  refine ⟨data, rfl, fun same => ?_⟩
  have two := so.two_updates within below first second
  obtain ⟨other, length, one⟩ := so.update_any _ below
  have bytes := same.buffered
  rw [(positions one.len []).1, (positions two.len []).1, two.buffered, length, so.buf_off whole]
    at bytes
  have early : ((data.drop (data.length / 32 * 32 - 32)).take (message.length % 32) ++ leftover 32 data)[
      message.length % 32 - 1]? = some 0 := by
    have kept : ((data.drop (data.length / 32 * 32 - 32)).take (message.length % 32)).length = message.length % 32 :=
      List.length_take_of_le (by rw [List.length_drop]; omega)
    have place : data.length / 32 * 32 - 32 + (message.length % 32 - 1) < data.length - data.length % 2 ^ 32 - 1 := by
      omega
    rw [List.getElem?_append_left (by omega), List.getElem?_take_of_lt (by omega), List.getElem?_drop]
    exact (congrArg (fun d => d[_]?) marks.symm).trans (marked_before place _)
  have late : (leftover 32 (message ++ data))[message.length % 32 - 1]? = some 1 := by
    have place : (message.length + data.length) / 32 * 32 + (message.length % 32 - 1) - message.length =
        data.length - data.length % 2 ^ 32 - 1 := by
      omega
    rw [leftover, List.getElem?_drop, List.length_append, List.getElem?_append_right (by omega), place]
    exact (congrArg (fun d => d[_]?) marks.symm).trans (marked_at _ _)
  rw [bytes, late] at early
  exact absurd early (by decide)

/-- The two parts go on: then the states are the same for all data just when the whole goes on. -/
theorem alike_iff (so : Absorbed ctx message) {n k : Nat} (within : k ≤ n) (below : message.length + n < 2 ^ 61)
    (first : GoesOn (message.length % 32) k) (second : GoesOn ((message.length + k) % 32) (n - k)) :
    (∀ data : List Byte, data.length = n → SameState (zcryptoHashGost3411Update ctx data)
        (zcryptoHashGost3411Update (zcryptoHashGost3411Update ctx (data.take k)) (data.drop k))) ↔
      GoesOn (message.length % 32) n := by
  constructor
  · intro alike
    by_contra off
    obtain ⟨data, size, differ⟩ := updates_differ so within below off first second
    exact differ (alike data size)
  · rintro whole data rfl
    exact (so.update (by omega) (.inr below) whole).sameState (so.two_updates within below first second)

end Gost3411

open Gost3411

/-- The data of MD5, SHA-1 and SHA-2-256 split as they should just when no update so far and not
    this one has 2^32 bytes or more.  GOST 34.11 counts right; if the two parts of the data go on
    with the blocks that are begun, they are like the whole for all data just when the whole
    does. -/
theorem updates_split_iff (sha2 : PHashSHA2_256) (gost : PHashGOST3411) (history : List (List Byte)) {n k : Nat}
    (within : k ≤ n) (below : history.flatten.length + n < 2 ^ 61) :
    (∀ data : List Byte, data.length = n →
      let small := (∀ chunk ∈ history, chunk.length < 2 ^ 32) ∧ n < 2 ^ 32
      (SplitsAlike zcryptoHashMd5Update id zcryptoHashMd5Reset history data k ↔ small) ∧
        (SplitsAlike zcryptoHashSha1Update id zcryptoHashSha1Reset history data k ↔ small) ∧
        (SplitsAlike zcryptoHashSha2_256Update PHashSHA2_256.block (zcryptoHashSha2_256Reset sha2) history data k ↔
          small)) ∧
      let ctx := history.foldl zcryptoHashGost3411Update (zcryptoHashGost3411Reset gost)
      let total := history.flatten.length
      (GoesOn (total % 32) k → GoesOn ((total + k) % 32) (n - k) →
        ((∀ data : List Byte, data.length = n → Gost3411.SameState (zcryptoHashGost3411Update ctx data)
            (zcryptoHashGost3411Update (zcryptoHashGost3411Update ctx (data.take k)) (data.drop k))) ↔
          GoesOn (total % 32) n)) := by
  refine ⟨?_, ?_⟩
  · rintro data rfl small
    have fits : (∀ chunk ∈ history ++ [data], chunk.length < 2 ^ 32) ↔ small := by
      rw [List.forall_mem_append, List.forall_mem_singleton]
    have short : (history.flatten ++ data).length < 2 ^ 32 * 2 ^ 32 := by
      rw [List.length_append]
      omega
    have blocks : SplitsAlike zcryptoHashSha2_256Update PHashSHA2_256.block (zcryptoHashSha2_256Reset sha2) history data k ↔
        SplitsAlike (blockUpdate (sha2_256Algorithm sha2.is224)) id (zcryptoHashSha2_256Reset sha2).block history data k := by
      rw [SplitsAlike, foldl_zcryptoHashSha2_256Update]
      rfl
    refine ⟨?_, ?_, ?_⟩
    · exact (splitsAlike_iff (.inl rfl) md5_in_order _ k short).trans fits
    · exact (splitsAlike_iff (.inl rfl) sha1_in_order _ k short).trans fits
    · exact blocks.trans ((splitsAlike_iff (.inl rfl) (sha2_256_in_order sha2.is224) _ k short).trans fits)
  · intro ctx total first second
    obtain ⟨message, length, so⟩ := (absorbed_reset gost).updates_any history (by rw [List.length_nil]; omega)
    rw [List.length_nil, Nat.zero_add] at length
    have alike := alike_iff so within (by omega) (by rwa [length]) (by rwa [length])
    rwa [length] at alike

/-- Two bytes after the first one, in one update and in two. -/
theorem updates_split_two_bytes :
    SplitsAlike zcryptoHashMd5Update id zcryptoHashMd5Reset [[0x61]] [0x62, 0x63] 1 ∧
      let ctx := zcryptoHashGost3411Update (zcryptoHashGost3411Reset
        ⟨Vector.replicate 8 0, Vector.replicate 8 0, Vector.replicate 8 0, Vector.replicate 8 0⟩) [0x61]
      Gost3411.SameState (zcryptoHashGost3411Update ctx [0x62, 0x63])
        (zcryptoHashGost3411Update (zcryptoHashGost3411Update ctx [0x62]) [0x63]) := by
  obtain ⟨blocks, gost⟩ := updates_split_iff ⟨blockReset (Vector.replicate 8 0), false⟩
    ⟨Vector.replicate 8 0, Vector.replicate 8 0, Vector.replicate 8 0, Vector.replicate 8 0⟩ [[0x61]]
    (show 1 ≤ 2 by decide) (by decide)
  exact ⟨(blocks [0x62, 0x63] rfl).1.mpr (by decide), (gost (by decide) (by decide)).mpr (by decide) [0x62, 0x63] rfl⟩

/-- An update of 2^32 bytes adds nothing to the counter of MD5. -/
theorem md5_loses_length :
    ¬∀ (history : List (List Byte)) (data : List Byte) (k : Nat), k ≤ data.length →
      (history.flatten ++ data).length < 2 ^ 61 →
      SplitsAlike zcryptoHashMd5Update id zcryptoHashMd5Reset history data k := by
  intro claim
  have size : (List.replicate (2 ^ 32) (0 : Byte)).length = 2 ^ 32 := List.length_replicate
  have short : (([] : List (List Byte)).flatten ++ List.replicate (2 ^ 32) (0 : Byte)).length = 2 ^ 32 := by
    rw [List.length_append, size]
    rfl
  have split := claim [] (List.replicate (2 ^ 32) 0) 0 (Nat.zero_le _) (by omega)
  have small := (splitsAlike_iff (.inl rfl) md5_in_order _ 0 (by omega)).mp split
  have last := small (List.replicate (2 ^ 32) 0) (List.mem_append_right _ (List.mem_singleton.mpr rfl))
  omega

end Plibsys.Crypto
