import Plibsys.Crypto.Algorithms
import Mathlib.Data.List.DropRight

/-! # Open and closed hashes

Given algorithms that compute a digest of the chunks they were fed, a `PCryptoHash` returns the
digest of the data it got while it was open: since the last reset and before the first
getter after it that closed the hash.  The algorithms of the library do so.
-/

namespace Plibsys.Crypto

open Support

/-- A call on a hash; allocations succeed. -/
inductive HashOp where
  | update (data : List Byte)
  | reset
  | getString
  | getDigest (buf : Region) (len : PSize)

namespace HashOp

/-- The buffer is as large as it is said to be. -/
def Valid : HashOp → Prop
  | .getDigest buf len => len.toNat ≤ buf.size
  | _ => True

def isReset : HashOp → Bool
  | .reset => true
  | _ => false

/-- The call takes a hash of `n` bytes, which closes the object. -/
def closes (n : Nat) : HashOp → Bool
  | .getString => true
  | .getDigest _ len => n ≤ len.toNat
  | _ => false

def data : HashOp → List Byte
  | .update data => data
  | _ => []

/-- A call that closes the object is no reset and brings no data. -/
theorem quiet_of_closes {n : Nat} {op : HashOp} (closing : op.closes n = true) : op.isReset = false ∧ op.data = [] := by
  cases op with
  | update data => cases closing
  | reset => cases closing
  | getString => exact ⟨rfl, rfl⟩
  | getDigest buf len => exact ⟨rfl, rfl⟩

end HashOp

/-- The calls since the last reset. -/
def sinceReset (ops : List HashOp) : List HashOp := ops.rtakeWhile fun op => !op.isReset

/-- The calls since the last reset that the hash got while it was open. -/
def openPart (n : Nat) (ops : List HashOp) : List HashOp :=
  (sinceReset ops).takeWhile fun op => !op.closes n

/-- The data that a hash has taken in. -/
def message (n : Nat) (ops : List HashOp) : List Byte := (openPart n ops).flatMap HashOp.data

/-- A getter has closed the hash since the last reset. -/
def isClosed (n : Nat) (ops : List HashOp) : Bool := (sinceReset ops).any fun op => op.closes n

/-- Lowercase hexadecimal digits. -/
def lowerHex (bytes : List Byte) : List Char :=
  bytes.flatMap fun b => [Nat.digitChar (b.toNat / 16), Nat.digitChar (b.toNat % 16)]

/-- A C string. -/
def cString (chars : List Char) : List Byte := chars.map fun c => BitVec.ofNat 8 c.toNat

inductive Reply where
  | done
  | string (ret : Option Region)
  | digest (buf : Region) (len : PSize)

namespace PCryptoHash

variable {C : Type}

def step (op : HashOp) (hash : PCryptoHash C) : Exec (Reply × PCryptoHash C) :=
  match op with
  | .update data => pure (.done, hash.zcryptoHashUpdate data)
  | .reset => pure (.done, hash.zcryptoHashReset)
  | .getString => do
      let (ret, hash) ← hash.zcryptoHashGetString true
      pure (.string ret, hash)
  | .getDigest buf len => do
      let (buf, len, hash) ← hash.zcryptoHashGetDigest buf len
      pure (.digest buf len, hash)

def run : List HashOp → PCryptoHash C → Exec (List Reply × PCryptoHash C)
  | [], hash => pure ([], hash)
  | op :: ops, hash => do
      let (reply, hash) ← hash.step op
      let (replies, hash) ← hash.run ops
      pure (reply :: replies, hash)

end PCryptoHash

/-- The answer to a call after other calls, for a digest `D` of `n` bytes. -/
def expected (D : List Byte → List Byte) (n : Nat) (before : List HashOp) : HashOp → Reply
  | .update _ => .done
  | .reset => .done
  | .getString =>
      .string (some ((Region.zeros (n * 2 + 1)).patch 0 (cString (lowerHex (D (message n before))))))
  | .getDigest buf len =>
      if n ≤ len.toNat then .digest (buf.patch 0 (D (message n before))) (BitVec.ofNat 64 n)
      else .digest buf 0

section Hex

theorem hexChar_high : ∀ b : Byte,
    hexChar ((b >>> 4) &&& 0x0F) = BitVec.ofNat 8 (Nat.digitChar (b.toNat / 16)).toNat := by
  decide +kernel

theorem hexChar_low : ∀ b : Byte,
    hexChar (b &&& 0x0F) = BitVec.ofNat 8 (Nat.digitChar (b.toNat % 16)).toNat := by
  decide +kernel

theorem cString_lowerHex_cons (b : Byte) (bytes : List Byte) :
    cString (lowerHex (b :: bytes)) =
      [hexChar ((b >>> 4) &&& 0x0F)] ++ ([hexChar (b &&& 0x0F)] ++ cString (lowerHex bytes)) := by
  rw [hexChar_high, hexChar_low]
  rfl

theorem digestToHexLoop_eq {digest out : Region} {left i : Nat} (readable : i + left ≤ digest.size)
    (writable : 2 * (i + left) ≤ out.size) :
    digestToHexLoop digest left i out =
      .ok (out.patch (2 * i) (cString (lowerHex (digest.slice i left)))) := by
  induction left generalizing i out with
  | zero => simp [digestToHexLoop, Region.slice, lowerHex, cString]
  | succ left ih =>
      unfold digestToHexLoop
      rw [Nat.shiftLeft_eq, Nat.mul_comm, Region.load_ok (by omega), Exec.ok_bind,
        Region.store_ok (by omega), Exec.ok_bind, Region.store_ok (by simp; omega), Exec.ok_bind,
        ih (by omega) (by simp; omega), Region.slice_succ, cString_lowerHex_cons,
        ← Region.patch_append, ← Region.patch_append]
      rfl

/-- The buffer of `zcrypto_hash_get_string` holds the digits and a final zero. -/
theorem digestToHex_eq {digest : Region} {len : PUInt} (long : len.toNat ≤ digest.size) :
    pzcryptoHashDigestToHex digest len (Region.zeros (len.toNat * 2 + 1)) =
      .ok ((Region.zeros (len.toNat * 2 + 1)).patch 0 (cString (lowerHex (digest.slice 0 len.toNat)))) := by
  have room : 2 * (0 + len.toNat) ≤ (Region.zeros (len.toNat * 2 + 1)).size := by
    simp only [Region.zeros]
    omega
  exact digestToHexLoop_eq (by omega) room

theorem length_lowerHex (bytes : List Byte) : (lowerHex bytes).length = 2 * bytes.length := by
  induction bytes with
  | nil => rfl
  | cons b bytes ih =>
      simp only [lowerHex, List.flatMap_cons, List.length_append, List.length_cons] at ih ⊢
      rw [ih]
      simp
      omega

end Hex

section History

variable {n : Nat} {ops : List HashOp} {op : HashOp}

theorem sinceReset_snoc (ops : List HashOp) (op : HashOp) :
    sinceReset (ops ++ [op]) = if op.isReset then [] else sinceReset ops ++ [op] := by
  unfold sinceReset
  rw [List.rtakeWhile_concat]
  cases op.isReset <;> rfl

theorem isClosed_snoc (kept : op.isReset = false) :
    isClosed n (ops ++ [op]) = (isClosed n ops || op.closes n) := by
  simp [isClosed, sinceReset_snoc, kept]

theorem openPart_snoc (kept : op.isReset = false) :
    openPart n (ops ++ [op]) =
      if isClosed n ops || op.closes n then openPart n ops else openPart n ops ++ [op] := by
  unfold openPart isClosed
  rw [sinceReset_snoc, kept, if_neg Bool.false_ne_true]
  induction sinceReset ops with
  | nil => cases closing : op.closes n <;> simp [closing]
  | cons first rest ih =>
      cases closing : first.closes n with
      | true => simp [closing]
      | false =>
          simp only [List.cons_append, List.takeWhile_cons, closing, List.any_cons, Bool.not_false,
            Bool.false_or, ih, if_true]
          split <;> rfl

theorem openPart_reset : openPart n (ops ++ [.reset]) = [] := by
  simp [openPart, sinceReset_snoc, HashOp.isReset]

theorem isClosed_reset : isClosed n (ops ++ [.reset]) = false := by
  simp [isClosed, sinceReset_snoc, HashOp.isReset]

/-- The data that reached the algorithm, in chunks. -/
def chunks (n : Nat) (ops : List HashOp) : List (List Byte) :=
  ((openPart n ops).map HashOp.data).filter fun data => !data.isEmpty

theorem flatten_chunks : (chunks n ops).flatten = message n ops := by
  rw [chunks, List.flatten_filter_not_isEmpty, message, List.flatMap_def]

/-- What reaches the algorithm is some of the data. -/
theorem openPart_sublist (n : Nat) (ops : List HashOp) : (openPart n ops).Sublist ops :=
  (List.takeWhile_sublist _).trans (List.rtakeWhile_suffix _ ops).sublist

/-- Calls with so much data feed the algorithm chunks that it can count. -/
theorem counted_chunks (n : Nat) (fit : ∀ op ∈ ops, op.data.length < 2 ^ 32)
    (short : (ops.flatMap HashOp.data).length < 2 ^ 61) (k : Nat) : Counted (chunks n (ops.take k)) := by
  have part : (openPart n (ops.take k)).Sublist ops := (openPart_sublist n _).trans (List.take_sublist k ops)
  constructor
  · intro chunk inside
    obtain ⟨op, called, rfl⟩ := List.mem_map.mp (List.mem_filter.mp inside).1
    exact fit op (part.subset called)
  · rw [flatten_chunks]
    exact Nat.lt_of_le_of_lt (part.flatMap HashOp.data).length_le short

theorem chunks_quiet (kept : op.isReset = false) (quiet : op.data = []) :
    chunks n (ops ++ [op]) = chunks n ops := by
  rw [chunks, openPart_snoc kept, chunks]
  split
  · rfl
  · simp [quiet]

theorem chunks_closed (kept : op.isReset = false) (shut : isClosed n ops = true) :
    chunks n (ops ++ [op]) = chunks n ops := by
  rw [chunks, openPart_snoc kept, shut, chunks]
  rfl

theorem chunks_update {data : List Byte} (shut : isClosed n ops = false) (nonempty : data ≠ []) :
    chunks n (ops ++ [.update data]) = chunks n ops ++ [data] := by
  rw [chunks, openPart_snoc rfl, shut, chunks]
  simp [HashOp.closes, HashOp.data, nonempty]

/-- Nothing but a reset changes what a closed hash has taken in. -/
theorem message_closed {later : List HashOp} (shut : isClosed n ops = true)
    (kept : ∀ op ∈ later, op.isReset = false) :
    isClosed n (ops ++ later) = true ∧ message n (ops ++ later) = message n ops := by
  induction later generalizing ops with
  | nil => simp [shut]
  | cons op later ih =>
      have first := kept op List.mem_cons_self
      have shutAfter : isClosed n (ops ++ [op]) = true := by rw [isClosed_snoc first, shut, Bool.true_or]
      have same : message n (ops ++ [op]) = message n ops := by
        rw [message, openPart_snoc first, shut]
        rfl
      rw [List.append_cons]
      obtain ⟨shutLater, sameLater⟩ := ih shutAfter fun other inside => kept other (List.mem_cons_of_mem op inside)
      exact ⟨shutLater, sameLater.trans same⟩

end History

/-- Every digest of the algorithm has the same length. -/
theorem Streams.length_digest {C : Type} {funcs : HashFuncs C} {D : List Byte → List Byte} {n : Nat} {fresh : C}
    {fits : List (List Byte) → Prop} (streams : Streams funcs D n fresh fits) {chunks : List (List Byte)}
    (fed : fits chunks) : (D chunks.flatten).length = n := by
  obtain ⟨d, -, -, eq⟩ := streams.digest chunks fed
  rw [← eq, Region.length_slice]

namespace PCryptoHash

variable {C : Type} {funcs : HashFuncs C} {D : List Byte → List Byte} {fresh : C} {fits : List (List Byte) → Prop}
variable {type : PCryptoHashType} {ops : List HashOp}

/-- The context after some calls. -/
def contextAfter (funcs : HashFuncs C) (fresh : C) (n : Nat) (ops : List HashOp) : C :=
  if isClosed n ops then funcs.finish ((chunks n ops).foldl funcs.update fresh)
  else (chunks n ops).foldl funcs.update fresh

/-- A new hash after some calls. -/
def hashAfter (type : PCryptoHashType) (funcs : HashFuncs C) (fresh : C) (ops : List HashOp) : PCryptoHash C :=
  ⟨type, contextAfter funcs fresh type.hashLen.toNat ops, type.hashLen, isClosed type.hashLen.toNat ops, funcs⟩

/-- Both getters close the hash in the same way. -/
theorem close_hashAfter (op : HashOp) (closing : op.closes type.hashLen.toNat = true) :
    (hashAfter type funcs fresh ops).close = hashAfter type funcs fresh (ops ++ [op]) := by
  obtain ⟨kept, quiet⟩ := HashOp.quiet_of_closes closing
  unfold close hashAfter contextAfter
  rw [isClosed_snoc kept, closing, chunks_quiet kept quiet]
  cases isClosed type.hashLen.toNat ops <;> rfl

/-- The digest of a hash that a call has closed. -/
theorem digest_hashAfter (streams : Streams funcs D type.hashLen.toNat fresh fits)
    (fed : fits (chunks type.hashLen.toNat ops)) (op : HashOp) (closing : op.closes type.hashLen.toNat = true) :
    ∃ d, funcs.digest (contextAfter funcs fresh type.hashLen.toNat (ops ++ [op])) = some d ∧
      type.hashLen.toNat ≤ d.size ∧ d.slice 0 type.hashLen.toNat = D (message type.hashLen.toNat ops) := by
  obtain ⟨kept, quiet⟩ := HashOp.quiet_of_closes closing
  obtain ⟨d, found, long, eq⟩ := streams.digest _ fed
  refine ⟨d, ?_, long, by rw [eq, flatten_chunks]⟩
  unfold contextAfter
  rw [isClosed_snoc kept, closing, Bool.or_true, if_pos rfl, chunks_quiet kept quiet]
  exact found

theorem update_hashAfter (data : List Byte) :
    (hashAfter type funcs fresh ops).zcryptoHashUpdate data =
      hashAfter type funcs fresh (ops ++ [.update data]) := by
  have sameClosed : isClosed type.hashLen.toNat (ops ++ [.update data]) = isClosed type.hashLen.toNat ops := by
    rw [isClosed_snoc rfl]
    exact Bool.or_false _
  unfold zcryptoHashUpdate hashAfter contextAfter
  rw [sameClosed]
  by_cases empty : data = []
  · subst empty
    rw [chunks_quiet rfl rfl]
    rfl
  · rw [if_neg (by simpa using empty)]
    cases shut : isClosed type.hashLen.toNat ops with
    | true =>
        rw [chunks_closed rfl shut]
        rfl
    | false => simp [chunks_update shut empty]

theorem reset_hashAfter (streams : Streams funcs D type.hashLen.toNat fresh fits)
    (fed : fits (chunks type.hashLen.toNat ops)) :
    (hashAfter type funcs fresh ops).zcryptoHashReset = hashAfter type funcs fresh [] := by
  have restored : funcs.reset (contextAfter funcs fresh type.hashLen.toNat ops) = fresh := by
    unfold contextAfter
    split
    · exact streams.reset_closed _ fed
    · exact streams.reset_open _ fed
  unfold zcryptoHashReset hashAfter
  rw [restored]
  rfl

theorem hashAfter_reset :
    hashAfter type funcs fresh (ops ++ [.reset]) = hashAfter type funcs fresh [] := by
  unfold hashAfter contextAfter chunks
  rw [openPart_reset, isClosed_reset]
  rfl

theorem getString_hashAfter (streams : Streams funcs D type.hashLen.toNat fresh fits)
    (fed : fits (chunks type.hashLen.toNat ops)) :
    (hashAfter type funcs fresh ops).zcryptoHashGetString true =
      .ok (some ((Region.zeros (type.hashLen.toNat * 2 + 1)).patch 0
          (cString (lowerHex (D (message type.hashLen.toNat ops))))),
        hashAfter type funcs fresh (ops ++ [.getString])) := by
  obtain ⟨d, found, long, eq⟩ := digest_hashAfter streams fed .getString rfl
  have hexed := digestToHex_eq long
  rw [eq] at hexed
  unfold zcryptoHashGetString
  rw [close_hashAfter .getString rfl]
  unfold hashAfter
  simp only [found, hexed, if_true, Exec.ok_bind]
  rfl

theorem getDigest_hashAfter (streams : Streams funcs D type.hashLen.toNat fresh fits)
    (fed : fits (chunks type.hashLen.toNat ops)) {buf : Region} {len : PSize} (room : len.toNat ≤ buf.size) (large : type.hashLen.toNat ≤ len.toNat) :
    (hashAfter type funcs fresh ops).zcryptoHashGetDigest buf len =
      .ok (buf.patch 0 (D (message type.hashLen.toNat ops)), type.hashLen.setWidth 64,
        hashAfter type funcs fresh (ops ++ [.getDigest buf len])) := by
  have closing : (HashOp.getDigest buf len).closes type.hashLen.toNat = true := decide_eq_true large
  obtain ⟨d, found, long, eq⟩ := digest_hashAfter streams fed (.getDigest buf len) closing
  have accepted : ¬ type.hashLen.setWidth 64 > len := by
    rw [gt_iff_lt, BitVec.lt_def, BitVec.toNat_setWidth]
    omega
  have copied : buf.memcpy 0 d 0 type.hashLen.toNat = .ok (buf.patch 0 (d.slice 0 type.hashLen.toNat)) :=
    Region.memcpy_ok (by omega) (by omega)
  unfold zcryptoHashGetDigest
  rw [close_hashAfter (.getDigest buf len) closing]
  unfold hashAfter
  simp only [accepted, if_false, found, copied, eq, Exec.ok_bind]
  rfl

/-- A buffer that is too small gets nothing and leaves the hash as it is. -/
theorem getDigest_short {hash : PCryptoHash C} {buf : Region} {len : PSize}
    (short : len.toNat < hash.hashLen.toNat) :
    hash.zcryptoHashGetDigest buf len = .ok (buf, 0, hash) := by
  have refused : hash.hashLen.setWidth 64 > len := by
    have bound := hash.hashLen.isLt
    rw [gt_iff_lt, BitVec.lt_def, BitVec.toNat_setWidth, Nat.mod_eq_of_lt (by omega)]
    exact short
  rw [zcryptoHashGetDigest, if_pos refused]
  rfl

/-- A small buffer does not count as a call. -/
theorem hashAfter_short {buf : Region} {len : PSize} (short : len.toNat < type.hashLen.toNat) :
    hashAfter type funcs fresh (ops ++ [.getDigest buf len]) = hashAfter type funcs fresh ops := by
  have harmless : (HashOp.getDigest buf len).closes type.hashLen.toNat = false :=
    decide_eq_false (Nat.not_le.mpr short)
  unfold hashAfter contextAfter
  rw [isClosed_snoc rfl, harmless, Bool.or_false, chunks_quiet rfl rfl]

/-- Every call answers as expected from the calls before it. -/
theorem step_expected (streams : Streams funcs D type.hashLen.toNat fresh fits)
    (fed : fits (chunks type.hashLen.toNat ops)) {op : HashOp} (valid : op.Valid) :
    (hashAfter type funcs fresh ops).step op =
      .ok (expected D type.hashLen.toNat ops op, hashAfter type funcs fresh (ops ++ [op])) := by
  cases op with
  | update data =>
      rw [step, update_hashAfter]
      rfl
  | reset =>
      rw [step, reset_hashAfter streams fed, hashAfter_reset]
      rfl
  | getString =>
      rw [step, getString_hashAfter streams fed]
      rfl
  | getDigest buf len =>
      by_cases large : type.hashLen.toNat ≤ len.toNat
      · have answer : expected D type.hashLen.toNat ops (.getDigest buf len) = .digest _ _ := if_pos large
        rw [step, getDigest_hashAfter streams fed valid large, answer, BitVec.ofNat_toNat]
        rfl
      · have answer : expected D type.hashLen.toNat ops (.getDigest buf len) = .digest _ _ := if_neg large
        have short := Nat.not_le.mp large
        rw [step, getDigest_short short, hashAfter_short short, answer]
        rfl

theorem run_expected (streams : Streams funcs D type.hashLen.toNat fresh fits) (before : List HashOp)
    {ops : List HashOp} (valid : ∀ op ∈ ops, op.Valid)
    (fed : ∀ k, fits (chunks type.hashLen.toNat (before ++ ops.take k))) :
    ∃ replies, (hashAfter type funcs fresh before).run ops =
        .ok (replies, hashAfter type funcs fresh (before ++ ops)) ∧
      ∀ k op, ops[k]? = some op →
        replies[k]? = some (expected D type.hashLen.toNat (before ++ ops.take k) op) := by
  induction ops generalizing before with
  | nil => exact ⟨[], by rw [List.append_nil]; rfl, by simp⟩
  | cons op ops ih =>
      have first : fits (chunks type.hashLen.toNat before) := by simpa using fed 0
      obtain ⟨replies, ran, answers⟩ :=
        ih (before ++ [op]) (fun other inside => valid other (List.mem_cons_of_mem op inside)) fun k => by
          simpa using fed (k + 1)
      refine ⟨expected D type.hashLen.toNat before op :: replies, ?_, ?_⟩
      · rw [run, step_expected streams first (valid op List.mem_cons_self)]
        simp only [Exec.ok_bind, ran]
        rw [List.append_assoc]
        rfl
      · intro k other called
        cases k with
        | zero =>
            cases called
            simp
        | succ k =>
            have answer := answers k other called
            rw [List.append_assoc] at answer
            exact answer

end PCryptoHash

namespace PCryptoHash

theorem eq_hashAfter_of_new {C : PCryptoHashType → Type} {table : (type : PCryptoHashType) → HashFuncs (C type)}
    {type : PCryptoHashType} {fresh : C type} {hash : PCryptoHash (C type)}
    (create : (table type).create true = some fresh) (created : zcryptoHashNew table true true type = some hash) :
    hash = hashAfter type (table type) fresh [] := by
  rw [zcryptoHashNew, if_pos rfl, create] at created
  exact (Option.some.inj created).symm

/-- A hash of the library answers with the digests of its algorithm. -/
theorem run_algorithms {type : PCryptoHashType} {hash : PCryptoHash type.Context}
    (created : zcryptoHashNew algorithms true true type = some hash) {ops : List HashOp} (valid : ∀ op ∈ ops, op.Valid)
    (counted : ∀ k, Counted (chunks type.hashLen.toNat (ops.take k))) :
    ∃ replies hash', hash.run ops = .ok (replies, hash') ∧ ∀ k op, ops[k]? = some op →
      replies[k]? = some (expected (digestOf type) type.hashLen.toNat (ops.take k) op) := by
  obtain ⟨fresh, streams⟩ := algorithms_stream type
  rw [eq_hashAfter_of_new streams.create created]
  obtain ⟨replies, ran, answers⟩ := run_expected streams [] valid counted
  exact ⟨replies, _, ran, answers⟩

end PCryptoHash

/-- Over any run of calls on a new hash of any type that feeds the algorithm such chunks as it
    takes: every answer is the digest of the data taken in before, in hexadecimal or as bytes; a
    closed hash ignores updates; a buffer that is too small has no effect; a reset makes the hash
    new again. -/
theorem hash_open_closed {C : PCryptoHashType → Type}
    {table : (type : PCryptoHashType) → HashFuncs (C type)} {type : PCryptoHashType}
    {D : List Byte → List Byte} {fresh : C type} {fits : List (List Byte) → Prop}
    (streams : Streams (table type) D type.hashLen.toNat fresh fits) {hash : PCryptoHash (C type)}
    (created : zcryptoHashNew table true true type = some hash) {ops : List HashOp}
    (valid : ∀ op ∈ ops, op.Valid) (fed : ∀ k, fits (chunks type.hashLen.toNat (ops.take k))) :
    ∃ replies hash', hash.run ops = .ok (replies, hash') ∧
      (∀ k op, ops[k]? = some op → replies[k]? = some (expected D type.hashLen.toNat (ops.take k) op)) ∧
      hash'.closed = isClosed type.hashLen.toNat ops ∧
      (hash'.closed = true → ∀ data, hash'.zcryptoHashUpdate data = hash') ∧
      (isClosed type.hashLen.toNat ops = true → ∀ later, (∀ op ∈ later, op.isReset = false) →
        message type.hashLen.toNat (ops ++ later) = message type.hashLen.toNat ops) ∧
      (∀ buf len, len.toNat < type.hashLen.toNat →
        hash'.zcryptoHashGetDigest buf len = .ok (buf, 0, hash')) ∧
      (∀ k, (cString (lowerHex (D (message type.hashLen.toNat (ops.take k))))).length = 2 * type.hashLen.toNat) ∧
      hash'.zcryptoHashReset = hash := by
  rw [PCryptoHash.eq_hashAfter_of_new streams.create created]
  obtain ⟨replies, ran, answers⟩ := PCryptoHash.run_expected streams [] valid fed
  have all : fits (chunks type.hashLen.toNat ops) := by simpa using fed ops.length
  refine ⟨replies, _, ran, answers, rfl, ?_, ?_, ?_, ?_, PCryptoHash.reset_hashAfter streams all⟩
  · intro closed data
    unfold PCryptoHash.zcryptoHashUpdate
    rw [if_pos closed, ite_self]
  · intro shut later kept
    exact (message_closed shut kept).2
  · intro buf len short
    exact PCryptoHash.getDigest_short short
  · intro k
    rw [cString, List.length_map, length_lowerHex, ← flatten_chunks, streams.length_digest (fed k)]

/-- A hash is read too early, into a buffer that is too small, and gets data when it is closed. -/
def abcCalls : List HashOp :=
  [.update [0x61, 0x62], .getDigest (Region.zeros 8) 8, .update [0x63], .getString, .update [0x64],
    .getDigest (Region.zeros 16) 16]

/-- The MD5 digest of the string `abc`. -/
theorem hash_open_closed_abc :
    ∃ replies hash', (⟨.md5, zcryptoHashMd5Reset, 16, false, algorithms .md5⟩ : PCryptoHash PHashMD5).run abcCalls =
        .ok (replies, hash') ∧
      replies[5]? = some (.digest ((Region.zeros 16).patch 0
        [0x90, 0x01, 0x50, 0x98, 0x3c, 0xd2, 0x4f, 0xb0, 0xd6, 0x96, 0x3f, 0x7d, 0x28, 0xe1, 0x7f, 0x72]) 16) := by
  have valid : ∀ op ∈ abcCalls, op.Valid := by simp [abcCalls, HashOp.Valid, Region.zeros]
  have counted : ∀ k, Counted (chunks 16 (abcCalls.take k)) :=
    counted_chunks 16 (by simp [abcCalls, HashOp.data]) (by simp [abcCalls, HashOp.data])
  have created : zcryptoHashNew algorithms true true .md5 =
      some ⟨.md5, zcryptoHashMd5Reset, 16, false, algorithms .md5⟩ := rfl
  obtain ⟨replies, hash', ran, answers, -⟩ := hash_open_closed md5_streams created valid counted
  have abc : Rfc1321.md5 [0x61, 0x62, 0x63] =
      [0x90, 0x01, 0x50, 0x98, 0x3c, 0xd2, 0x4f, 0xb0, 0xd6, 0x96, 0x3f, 0x7d, 0x28, 0xe1, 0x7f, 0x72] := by
    decide +kernel
  rw [← abc]
  exact ⟨replies, hash', ran, answers 5 _ rfl⟩

end Plibsys.Crypto
