import Plibsys.Crypto.PHashSHA1
import Plibsys.Crypto.Streaming
import Plibsys.Support.Recurrence
import Mathlib.Tactic.FinCases
import Mathlib.Tactic.IntervalCases

/-! # SHA-1

The digest of FIPS 180-4, and that `pcryptohash-sha1.c` computes it.  The code keeps sixteen
words of the schedule in a ring that it overwrites as it goes.
-/

namespace Plibsys.Crypto

open Support

namespace Fips180.Sha1

/-- The functions Ch, Parity, Maj and Parity. -/
def function (t : Nat) (x y z : BitVec 32) : BitVec 32 :=
  match t / 20 with
  | 0 => (x &&& y) ^^^ (~~~x &&& z)
  | 2 => (x &&& y) ^^^ (x &&& z) ^^^ (y &&& z)
  | _ => x ^^^ y ^^^ z

def constant (t : Nat) : BitVec 32 :=
  match t / 20 with
  | 0 => 0x5a827999
  | 1 => 0x6ed9eba1
  | 2 => 0x8f1bbcdc
  | _ => 0xca62c1d6

/-- The next word of the schedule. -/
def nextWord (words : List (BitVec 32)) : BitVec 32 :=
  let t := words.length
  (words.getD (t - 3) 0 ^^^ words.getD (t - 8) 0 ^^^ words.getD (t - 14) 0 ^^^ words.getD (t - 16) 0).rotateLeft 1

/-- The 80 words of the schedule. -/
def schedule (block : Vector (BitVec 32) 16) : List (BitVec 32) := extend nextWord block.toList 64

/-- One of the 80 steps on the words a to e. -/
def step (words : List (BitVec 32)) (t : Nat) (v : Vector (BitVec 32) 5) : Vector (BitVec 32) 5 :=
  let a := v.get 0
  let b := v.get 1
  let c := v.get 2
  let d := v.get 3
  let e := v.get 4
  #v[a.rotateLeft 5 + function t b c d + e + constant t + words.getD t 0, a, b.rotateLeft 30, c, d]

def compress (hash : Vector (BitVec 32) 5) (block : Vector (BitVec 32) 16) : Vector (BitVec 32) 5 :=
  let words := schedule block
  let v := (List.range 80).foldl (fun v t => step words t v) hash
  Vector.zipWith (· + ·) hash v

def initial : Vector (BitVec 32) 5 :=
  #v[0x67452301#32, 0xefcdab89#32, 0x98badcfe#32, 0x10325476#32, 0xc3d2e1f0#32]

/-- The digest of a message of whole bytes. -/
def sha1 (message : List Byte) : List Byte := hashBytes true (merkleDamgard true compress initial message)

end Fips180.Sha1

namespace Sha1

theorem rotl_eq {shift : Nat} (small : shift < 32) (val : BitVec 32) : rotl val shift = val.rotateLeft shift := by
  rw [rotl, BitVec.rotateLeft_def, Nat.mod_eq_of_lt small]

theorem f1_eq (x y z : BitVec 32) : f1 x y z = (x &&& y) ^^^ (~~~x &&& z) := by
  apply BitVec.eq_of_getLsbD_eq
  intro i inside
  simp only [f1, BitVec.getLsbD_xor, BitVec.getLsbD_and, BitVec.getLsbD_or, BitVec.getLsbD_not, inside, decide_true,
    Bool.true_and]
  cases x.getLsbD i <;> cases y.getLsbD i <;> cases z.getLsbD i <;> rfl

theorem f3_eq (x y z : BitVec 32) : f3 x y z = (x &&& y) ^^^ (x &&& z) ^^^ (y &&& z) := by
  apply BitVec.eq_of_getLsbD_eq
  intro i inside
  simp only [f3, BitVec.getLsbD_xor, BitVec.getLsbD_and, BitVec.getLsbD_or]
  cases x.getLsbD i <;> cases y.getLsbD i <;> cases z.getLsbD i <;> rfl

/-- The word of a step. -/
def stepWord (t : Nat) : Word := if t < 16 then .plain (Fin.ofNat 16 t) else .next t

/-- The call of a step: the names are those of the round. -/
def callOf (t : Nat) : Call :=
  ⟨[.round0, .round1, .round2, .round3].getD (t / 20) .round0, 0 - Fin.ofNat 5 t, 1 - Fin.ofNat 5 t, 2 - Fin.ofNat 5 t,
    3 - Fin.ofNat 5 t, 4 - Fin.ofNat 5 t, stepWord t⟩

theorem calls_eq : calls = (List.range 80).map callOf := by decide +kernel

theorem function_callOf {t : Nat} (below : t < 80) (x y z : BitVec 32) :
    (callOf t).round.function x y z = Fips180.Sha1.function t x y z := by
  have quarter : t / 20 < 4 := by omega
  unfold callOf Fips180.Sha1.function
  generalize t / 20 = q at quarter ⊢
  interval_cases q
  · exact f1_eq x y z
  · rfl
  · exact f3_eq x y z
  · rfl

theorem constant_callOf {t : Nat} (below : t < 80) : (callOf t).round.constant = Fips180.Sha1.constant t := by
  have quarter : t / 20 < 4 := by omega
  unfold callOf Fips180.Sha1.constant
  generalize t / 20 = q at quarter ⊢
  interval_cases q <;> rfl

/-! ## The schedule -/

theorem slot_eq (i : Nat) : slot i = Fin.ofNat 16 i := by
  have low : i &&& 0x0F = i % 2 ^ 4 := Nat.and_two_pow_sub_one_eq_mod i 4
  apply Fin.ext
  rw [slot, low]
  exact Nat.mod_mod i 16

theorem schedule_next {block : Vector (BitVec 32) 16} {t : Nat} (later : 16 ≤ t) (below : t < 80) :
    let words := Fips180.Sha1.schedule block
    words.getD t 0 =
      (words.getD (t - 3) 0 ^^^ words.getD (t - 8) 0 ^^^ words.getD (t - 14) 0 ^^^ words.getD (t - 16) 0).rotateLeft 1 := by
  intro words
  have first : block.toList.length = 16 := Vector.length_toList
  have before : (words.take t).length = t := by
    simp only [words, Fips180.Sha1.schedule, List.length_take, length_extend, first]
    omega
  have new : words.getD t 0 = Fips180.Sha1.nextWord (words.take t) :=
    getD_extend (by omega) (by omega)
  rw [new, Fips180.Sha1.nextWord, before, getD_take (by omega), getD_take (by omega), getD_take (by omega),
    getD_take (by omega)]

/-- The ring holds the latest words of the schedule. -/
abbrev Scheduled (block : Vector (BitVec 32) 16) (t : Nat) (w : Vector (BitVec 32) 16) : Prop :=
  Latest w (fun k => (Fips180.Sha1.schedule block).getD k 0) (max 16 t)

theorem scheduled_start (block : Vector (BitVec 32) 16) : Scheduled block 0 block := by
  intro k below _
  have inside : k < 16 := by omega
  have slot : Fin.ofNat 16 k = ⟨k, inside⟩ := Fin.ext (Nat.mod_eq_of_lt inside)
  have listed : k < block.toList.length := by rwa [Vector.length_toList]
  simp only [Fips180.Sha1.schedule]
  rw [getD_extend_first listed, List.getD_eq_getElem _ _ listed, slot, Vector.getElem_toList]
  rfl

/-- What the macro takes as its word is the word of the schedule. -/
theorem fetch_word {block w : Vector (BitVec 32) 16} {t : Nat} (scheduled : Scheduled block t w) (below : t < 80) :
    ((stepWord t).fetch w).1 = (Fips180.Sha1.schedule block).getD t 0 := by
  unfold stepWord
  split
  · next early => exact scheduled t (by omega) (by omega)
  · next later =>
      simp only [Word.fetch, expand, slot_eq, rotl_eq (show 1 < 32 by decide)]
      rw [schedule_next (by omega) below, scheduled (t - 3) (by omega) (by omega), scheduled (t - 8) (by omega) (by omega),
        scheduled (t - 14) (by omega) (by omega), scheduled (t - 16) (by omega) (by omega)]

theorem scheduled_fetch {block w : Vector (BitVec 32) 16} {t : Nat} (scheduled : Scheduled block t w) (below : t < 80) :
    Scheduled block (t + 1) ((stepWord t).fetch w).2 := by
  have word := fetch_word scheduled below
  revert word
  unfold stepWord
  split
  · next early =>
      intro _
      rw [Scheduled, show max 16 (t + 1) = max 16 t by omega]
      exact scheduled
  · next later =>
      intro word
      have kept := scheduled.write
      rw [show max 16 t = t by omega, ← word] at kept
      rw [Scheduled, show max 16 (t + 1) = t + 1 by omega]
      rw [← slot_eq] at kept
      exact kept

/-! ## The rounds -/

/-- A call writes the registers that the step moves to the first and the third place. -/
theorem view_run {words : List (BitVec 32)} {t : Nat} (below : t < 80) {state : State}
    (word : ((stepWord t).fetch state.w).1 = words.getD t 0) :
    view ((callOf t).run state).registers (Fin.ofNat 5 (t + 1)) =
      Fips180.Sha1.step words t (view state.registers (Fin.ofNat 5 t)) := by
  let v := view state.registers (Fin.ofNat 5 t)
  let x := (Fips180.Sha1.step words t v).get 0
  have sum : v.get 4 + ((v.get 0).rotateLeft 5 + Fips180.Sha1.function t (v.get 1) (v.get 2) (v.get 3) +
      Fips180.Sha1.constant t + words.getD t 0) = x := by
    change _ = (v.get 0).rotateLeft 5 + Fips180.Sha1.function t (v.get 1) (v.get 2) (v.get 3) + v.get 4 +
      Fips180.Sha1.constant t + words.getD t 0
    ac_rfl
  have other : (view (write state.registers (4 - Fin.ofNat 5 t) x) (Fin.ofNat 5 t)).get 1 = v.get 1 := by
    rw [view_write, get_write, if_neg (by decide)]
  have run : ((callOf t).run state).registers =
      write (write state.registers (4 - Fin.ofNat 5 t) x) (1 - Fin.ofNat 5 t) ((v.get 1).rotateLeft 30) := by
    simp only [Call.run, function_callOf below, constant_callOf below, rotl_eq (show 5 < 32 by decide),
      rotl_eq (show 30 < 32 by decide)]
    simp only [callOf, word, ← get_view]
    rw [sum, other]
  rw [run, ofNat_succ]
  apply vector_ext
  intro r
  rw [get_view_succ, view_write, view_write, get_write, get_write]
  fin_cases r <;> rfl

/-- The words that the calls take, one after the other. -/
def takenWords : State → List Call → List (BitVec 32)
  | _, [] => []
  | state, call :: calls => (call.word.fetch state.w).1 :: takenWords (call.run state) calls

theorem takenWords_append (state : State) (before : List Call) (call : Call) :
    takenWords state (before ++ [call]) =
      takenWords state before ++ [(call.word.fetch (before.foldl (fun state call => call.run state) state).w).1] := by
  induction before generalizing state with
  | nil => rfl
  | cons first before ih => rw [List.cons_append, takenWords, ih, takenWords, List.foldl_cons, List.cons_append]

/-- After some calls the registers hold the state of the standard, and the ring the schedule. -/
theorem run_calls (hash : Vector (BitVec 32) 5) (block : Vector (BitVec 32) 16) {rounds : Nat} (within : rounds ≤ 80) :
    let state := (List.range rounds).foldl (fun state t => (callOf t).run state) ⟨hash, block⟩
    view state.registers (Fin.ofNat 5 rounds) =
        (List.range rounds).foldl (fun v t => Fips180.Sha1.step (Fips180.Sha1.schedule block) t v) hash ∧
      Scheduled block rounds state.w := by
  induction rounds with
  | zero => exact ⟨view_zero hash, scheduled_start block⟩
  | succ rounds ih =>
      obtain ⟨registers, scheduled⟩ := ih (by omega)
      simp only [List.range_succ, List.foldl_append, List.foldl_cons, List.foldl_nil]
      constructor
      · rw [view_run (by omega) (fetch_word scheduled (by omega)), registers]
      · exact scheduled_fetch scheduled (by omega)

/-- The ring gives the words of the standard, in its order. -/
theorem takenWords_calls (hash : Vector (BitVec 32) 5) (block : Vector (BitVec 32) 16) :
    takenWords ⟨hash, block⟩ calls = Fips180.Sha1.schedule block := by
  have count : (Fips180.Sha1.schedule block).length = 80 := by
    rw [Fips180.Sha1.schedule, length_extend, Vector.length_toList]
  have taken : ∀ rounds ≤ 80, takenWords ⟨hash, block⟩ ((List.range rounds).map callOf) =
      (Fips180.Sha1.schedule block).take rounds := by
    intro rounds within
    induction rounds with
    | zero => rfl
    | succ rounds ih =>
        have inside : rounds < (Fips180.Sha1.schedule block).length := by omega
        obtain ⟨-, scheduled⟩ := run_calls hash block (show rounds ≤ 80 by omega)
        have word := fetch_word scheduled (by omega)
        rw [List.getD_eq_getElem _ _ inside] at word
        rw [List.range_succ, List.map_append, List.map_singleton, takenWords_append, ih (by omega), List.foldl_map,
          List.take_succ_eq_append_getElem inside, ← word]
        rfl
  rw [calls_eq, taken 80 (Nat.le_refl 80), List.take_of_length_le (Nat.le_of_eq count)]

end Sha1

/-- The process function is the compression of the standard. -/
theorem pzcryptoHashSha1Process_eq : pzcryptoHashSha1Process = Fips180.Sha1.compress := by
  funext hash data
  obtain ⟨registers, -⟩ := Sha1.run_calls hash data (Nat.le_refl 80)
  rw [show Fin.ofNat 5 80 = 0 from rfl, view_zero] at registers
  rw [pzcryptoHashSha1Process, Fips180.Sha1.compress, Sha1.calls_eq, List.foldl_map, registers]

theorem sha1_in_order : InByteOrder sha1Algorithm true :=
  ⟨fun _ whole => puint32SwapBytes_wordOf whole, fun _ _ => rfl⟩

theorem zcryptoHashSha1Digest_eq {chunks : List (List Byte)} (short : chunks.flatten.length < 2 ^ 61)
    (fit : ∀ chunk ∈ chunks, chunk.length < 2 ^ 32) :
    zcryptoHashSha1Digest (zcryptoHashSha1Finish (chunks.foldl zcryptoHashSha1Update zcryptoHashSha1Reset)) =
      Fips180.Sha1.sha1 chunks.flatten := by
  have digest := blockDigest_eq (.inl rfl) sha1_in_order Fips180.Sha1.initial rfl fit (by omega)
  rwa [show sha1Algorithm.process = Fips180.Sha1.compress from pzcryptoHashSha1Process_eq] at digest

/-- However a message is split into updates, the digest is that of the standard; and in every
    block the 80 calls take the 80 words of its schedule. -/
theorem sha1_digest_eq (chunks : List (List Byte)) (short : chunks.flatten.length < 2 ^ 61)
    (fit : ∀ chunk ∈ chunks, chunk.length < 2 ^ 32) :
    (zcryptoHashSha1New true).map (fun ctx =>
        zcryptoHashSha1Digest (zcryptoHashSha1Finish (chunks.foldl zcryptoHashSha1Update ctx))) =
        some (Fips180.Sha1.sha1 chunks.flatten) ∧
      ∀ hash block, Sha1.takenWords ⟨hash, block⟩ Sha1.calls = Fips180.Sha1.schedule block :=
  ⟨congrArg some (zcryptoHashSha1Digest_eq short fit), Sha1.takenWords_calls⟩

/-- A message in two updates. -/
theorem sha1_digest_two_updates :
    (zcryptoHashSha1New true).map (fun ctx =>
        zcryptoHashSha1Digest
          (zcryptoHashSha1Finish (zcryptoHashSha1Update (zcryptoHashSha1Update ctx [0x61]) [0x62, 0x63]))) =
      some (Fips180.Sha1.sha1 [0x61, 0x62, 0x63]) :=
  (sha1_digest_eq [[0x61], [0x62, 0x63]] (by decide) (by decide)).1

end Plibsys.Crypto
