import Plibsys.Socket.PSocketAddress

/-! # Round trips of socket addresses

An address that the library has made survives the conversion to the system and back, whatever
else the buffer holds.  An address of the system survives the conversion to the library and
back, but for the padding.
-/

namespace Plibsys.SocketAddress

open Support

/-! ## Bytes and numbers -/

theorem portOf_bytesOf (port : BitVec 16) : portOf (bytesOf (puint16SwapBytes port)) = port := by
  rw [portOf, wordOf_bytesOf (by decide), puint16SwapBytes_swap]

theorem bytesOf_portOf {bytes : List Byte} (whole : bytes.length = 2) : bytesOf (puint16SwapBytes (portOf bytes)) = bytes := by
  rw [portOf, puint16SwapBytes_swap, bytesOf_wordOf (by decide) whole]

/-! ## The bytes of an address -/

/-- The bytes of the structure of the system. -/
def nativeOf (a : PSocketAddress) : List Byte :=
  match a.family with
  | .inet => bytesOf afInet ++ bytesOf (puint16SwapBytes a.port) ++ a.bytes 4 ++ List.replicate 8 0
  | .inet6 =>
      bytesOf afInet6 ++ bytesOf (puint16SwapBytes a.port) ++ bytesOf a.flowinfo ++ a.bytes 16 ++ bytesOf a.scopeId
  | .unknown => []

theorem length_bytes (a : PSocketAddress) {n : Nat} (few : n ≤ 16) : (a.bytes n).length = n := by
  simp [PSocketAddress.bytes]
  omega

theorem length_nativeOf (a : PSocketAddress) : (nativeOf a).length = zsocketAddressGetNativeSize (some a) := by
  cases family : a.family <;>
    simp [nativeOf, zsocketAddressGetNativeSize, family, length_bytes, sizeofSockaddrIn, sizeofSockaddrIn6]

variable {a : PSocketAddress} {dest native : Region} {len destlen : PSize}

/-- The writes of the structure for IPv4, in the order of the source. -/
theorem patch_inet (port bytes zeros : List Byte) (two : port.length = 2) (four : bytes.length = 4) :
    (((dest.patch 4 bytes).patch 0 (bytesOf afInet)).patch 2 port).patch 8 zeros =
      dest.patch 0 (bytesOf afInet ++ port ++ bytes ++ zeros) := by
  rw [Region.patch_comm bytes _ (Or.inr (by simp)), Region.patch_comm bytes _ (Or.inr (by omega)),
    Region.patch_behind (by omega), Region.patch_behind (by omega), Region.patch_behind (by simp)]
  simp only [List.append_assoc]

/-- The writes of the structure for IPv6, in the order of the source. -/
theorem patch_inet6 (port flowinfo bytes scopeId : List Byte) (two : port.length = 2) (four : flowinfo.length = 4)
    (all : bytes.length = 16) :
    ((((dest.patch 8 bytes).patch 0 (bytesOf afInet6)).patch 2 port).patch 4 flowinfo).patch 24 scopeId =
      dest.patch 0 (bytesOf afInet6 ++ port ++ flowinfo ++ bytes ++ scopeId) := by
  rw [Region.patch_comm bytes _ (Or.inr (by simp)), Region.patch_comm bytes _ (Or.inr (by omega)),
    Region.patch_comm bytes _ (Or.inr (by omega)), Region.patch_behind (by omega), Region.patch_behind (by omega),
    Region.patch_behind (by omega), Region.patch_behind (by simp)]
  simp only [List.append_assoc]

theorem zsocketAddressToNative_eq (known : a.family ≠ .unknown)
    (fits : zsocketAddressGetNativeSize (some a) ≤ destlen.toNat) (room : destlen.toNat ≤ dest.size) :
    zsocketAddressToNative (some a) (some dest) destlen = .ok (true, some (dest.patch 0 (nativeOf a))) := by
  have some_room : destlen ≠ 0 := by
    rintro rfl
    cases family : a.family <;> simp_all [zsocketAddressGetNativeSize, sizeofSockaddrIn, sizeofSockaddrIn6]
  unfold zsocketAddressToNative
  dsimp only
  rw [if_neg some_room]
  cases family : a.family with
  | unknown => contradiction
  | inet =>
      have four := length_bytes a (show 4 ≤ 16 by decide)
      simp only [zsocketAddressGetNativeSize, family] at fits
      have enough : 16 ≤ dest.size := Nat.le_trans fits room
      simp only [nativeOf, family]
      rw [if_neg (Nat.not_lt.mpr fits), ← patch_inet _ _ _ (by simp) four]
      repeat rw [Region.storeBytes_bind (by simp [four]; omega)]
      rfl
  | inet6 =>
      have all := length_bytes a (show 16 ≤ 16 by decide)
      simp only [zsocketAddressGetNativeSize, family] at fits
      have enough : 28 ≤ dest.size := Nat.le_trans fits room
      simp only [nativeOf, family]
      rw [if_neg (Nat.not_lt.mpr fits), ← patch_inet6 _ _ _ _ (by simp) (by simp) all]
      repeat rw [Region.storeBytes_bind (by simp [all]; omega)]
      rfl

theorem zsocketAddressToNative_short (known : a.family ≠ .unknown)
    (short : destlen.toNat < zsocketAddressGetNativeSize (some a)) :
    zsocketAddressToNative (some a) (some dest) destlen = .ok (false, some dest) := by
  unfold zsocketAddressToNative
  dsimp only
  split
  · rfl
  · cases family : a.family with
    | unknown => contradiction
    | inet =>
        simp only [zsocketAddressGetNativeSize, family] at short
        exact if_pos short
    | inet6 =>
        simp only [zsocketAddressGetNativeSize, family] at short
        exact if_pos short

/-! ## The addresses of the library -/

/-- An IPv4 address. -/
def inetAddress (bytes : List Byte) (port : BitVec 16) : PSocketAddress :=
  { PSocketAddress.zero.setAddr bytes with family := .inet, port := port }

/-- An IPv6 address. -/
def inet6Address (bytes : List Byte) (port : BitVec 16) (flowinfo scopeId : BitVec 32) : PSocketAddress :=
  { PSocketAddress.zero.setAddr bytes with family := .inet6, port := port, flowinfo := flowinfo, scopeId := scopeId }

/-- An address with a known family, and zeros in everything that its family does not use. -/
inductive WellFormed : PSocketAddress → Prop where
  | inet (bytes : List Byte) (port : BitVec 16) (four : bytes.length = 4) : WellFormed (inetAddress bytes port)
  | inet6 (bytes : List Byte) (port : BitVec 16) (flowinfo scopeId : BitVec 32) (all : bytes.length = 16) :
      WellFormed (inet6Address bytes port flowinfo scopeId)

theorem bytes_setAddr {bytes : List Byte} {n : Nat} (length : bytes.length = n) (few : n ≤ 16) :
    (a.setAddr bytes).bytes n = bytes := by
  apply List.ext_getElem
  · rw [length_bytes _ few, length]
  · intro i inside inside'
    simp [PSocketAddress.bytes, PSocketAddress.setAddr, inside']

/-- What a successful conversion from the system gives. -/
theorem zsocketAddressNewFromNative_ok {allocated : Bool} {native : Option Region}
    (result : zsocketAddressNewFromNative allocated native len = .ok (some a)) :
    ∃ m, native = some m ∧
      ((wordOf 16 (m.slice 0 2) = afInet ∧ sizeofSockaddrIn ≤ len.toNat ∧
          a = inetAddress (m.slice 4 4) (portOf (m.slice 2 2))) ∨
        (wordOf 16 (m.slice 0 2) = afInet6 ∧ sizeofSockaddrIn6 ≤ len.toNat ∧
          a = inet6Address (m.slice 8 16) (portOf (m.slice 2 2)) (wordOf 32 (m.slice 4 4)) (wordOf 32 (m.slice 24 4)))) := by
  cases native with
  | none => simp [zsocketAddressNewFromNative] at result
  | some m =>
      refine ⟨m, rfl, ?_⟩
      simp only [zsocketAddressNewFromNative] at result
      split at result
      · cases result
      · split at result
        · cases result
        · obtain ⟨-, result⟩ := Region.of_loadBytes_bind result
          split at result
          · next family =>
              left
              split at result
              · cases result
              · next enough =>
                  obtain ⟨-, result⟩ := Region.of_loadBytes_bind result
                  obtain ⟨-, result⟩ := Region.of_loadBytes_bind result
                  cases result
                  exact ⟨family, Nat.not_lt.mp enough, rfl⟩
          · split at result
            · next family =>
                right
                split at result
                · cases result
                · next enough =>
                    obtain ⟨-, result⟩ := Region.of_loadBytes_bind result
                    obtain ⟨-, result⟩ := Region.of_loadBytes_bind result
                    obtain ⟨-, result⟩ := Region.of_loadBytes_bind result
                    obtain ⟨-, result⟩ := Region.of_loadBytes_bind result
                    cases result
                    exact ⟨family, Nat.not_lt.mp enough, rfl⟩
            · cases result

theorem wellFormed_of_fromNative {allocated : Bool} {native : Option Region}
    (result : zsocketAddressNewFromNative allocated native len = .ok (some a)) : WellFormed a := by
  obtain ⟨m, -, ⟨-, -, rfl⟩ | ⟨-, -, rfl⟩⟩ := zsocketAddressNewFromNative_ok result
  · exact .inet _ _ Region.length_slice
  · exact .inet6 _ _ _ _ Region.length_slice

theorem wellFormed_of_new {resolver : Resolver} {allocated : Bool} {address : Option (List Byte)} {port : BitVec 16}
    (result : zsocketAddressNew resolver allocated address port = .ok (some a)) : WellFormed a := by
  cases address with
  | none => simp [zsocketAddressNew] at result
  | some address =>
      simp only [zsocketAddressNew] at result
      split at result
      · split at result
        · cases result
        · split at result
          · obtain ⟨-, result⟩ := Region.of_storeBytes_bind result
            exact wellFormed_of_fromNative result
          · cases result
      · split at result
        · cases result
        · split at result
          · cases result
            exact .inet _ _ (by simp)
          · split at result
            · cases result
              exact .inet6 _ _ 0 0 (by simp)
            · cases result

theorem wellFormed_of_newOf {addr4 addr6 : List Byte} {allocated : Bool} {family : PSocketFamily} {port : BitVec 16}
    (four : addr4.length = 4) (all : addr6.length = 16) (result : newOf addr4 addr6 allocated family port = some a) :
    WellFormed a := by
  unfold newOf at result
  split at result
  · contradiction
  · cases family with
    | inet =>
        cases result
        exact .inet _ _ four
    | inet6 =>
        cases result
        exact .inet6 _ _ 0 0 all
    | unknown => contradiction

/-- Every function of the library keeps what is well formed. -/
theorem Built.wellFormed (built : Built a) : WellFormed a := by
  induction built with
  | fromNative result => exact wellFormed_of_fromNative result
  | new result => exact wellFormed_of_new result
  | any result => exact wellFormed_of_newOf (by decide) (by decide) result
  | loopback result => exact wellFormed_of_newOf (by decide) (by decide) result
  | setFlowInfo built flowinfo ih =>
      cases ih with
      | inet bytes port four => exact .inet bytes port four
      | inet6 bytes port old scopeId all => exact .inet6 bytes port flowinfo scopeId all
  | setScopeId built scopeId ih =>
      cases ih with
      | inet bytes port four => exact .inet bytes port four
      | inet6 bytes port flowinfo old all => exact .inet6 bytes port flowinfo scopeId all

theorem WellFormed.known (formed : WellFormed a) : a.family ≠ .unknown := by
  cases formed <;> nofun

/-! ## From the system to the library -/

/-- What the conversion of an honest buffer gives. -/
theorem zsocketAddressNewFromNative_eq (some_len : len ≠ 0) (honest : len.toNat ≤ native.size) (sized : 2 ≤ native.size) :
    zsocketAddressNewFromNative true (some native) len = .ok (
      if wordOf 16 (native.slice 0 2) = afInet then
        if len.toNat < sizeofSockaddrIn then none else some (inetAddress (native.slice 4 4) (portOf (native.slice 2 2)))
      else if wordOf 16 (native.slice 0 2) = afInet6 then
        if len.toNat < sizeofSockaddrIn6 then
          none
        else
          some (inet6Address (native.slice 8 16) (portOf (native.slice 2 2)) (wordOf 32 (native.slice 4 4))
            (wordOf 32 (native.slice 24 4)))
      else
        none) := by
  simp only [zsocketAddressNewFromNative, if_neg some_len]
  rw [if_neg (by decide), Region.loadBytes_bind (by omega)]
  by_cases inet : wordOf 16 (native.slice 0 2) = afInet
  · rw [if_pos inet, if_pos inet]
    by_cases short : len.toNat < sizeofSockaddrIn
    · rw [if_pos short, if_pos short]
      rfl
    · have enough : 16 ≤ native.size := Nat.le_trans (Nat.not_lt.mp short) honest
      rw [if_neg short, if_neg short, Region.loadBytes_bind (by omega), Region.loadBytes_bind (by omega)]
      rfl
  · rw [if_neg inet, if_neg inet]
    by_cases inet6 : wordOf 16 (native.slice 0 2) = afInet6
    · rw [if_pos inet6, if_pos inet6]
      by_cases short : len.toNat < sizeofSockaddrIn6
      · rw [if_pos short, if_pos short]
        rfl
      · have enough : 28 ≤ native.size := Nat.le_trans (Nat.not_lt.mp short) honest
        rw [if_neg short, if_neg short, Region.loadBytes_bind (by omega), Region.loadBytes_bind (by omega),
          Region.loadBytes_bind (by omega), Region.loadBytes_bind (by omega)]
        rfl
    · rw [if_neg inet6, if_neg inet6]
      rfl

/-- A field in the middle of some bytes. -/
theorem field {whole front middle back : List Byte} {k n : Nat} (parts : whole = front ++ (middle ++ back))
    (start : front.length = k) (length : middle.length = n) : (whole.drop k).take n = middle := by
  rw [parts, ← start, List.drop_left, ← length, List.take_left]

/-- A field of the structure of the system. -/
theorem slice_nativeOf (a : PSocketAddress) (dest : Region) (k n : Nat) (front middle back : List Byte)
    (parts : nativeOf a = front ++ (middle ++ back))
    (start : front.length = k) (length : middle.length = n) : (dest.patch 0 (nativeOf a)).slice k n = middle := by
  have inside : k + n ≤ (nativeOf a).length := by
    rw [parts, List.length_append, List.length_append, start, length]
    omega
  have read : (dest.patch 0 (nativeOf a)).slice (0 + k) n = _ := Region.slice_patch_inside inside
  rw [← Nat.zero_add k, read, field parts start length]

theorem nativeOf_inet {bytes : List Byte} (port : BitVec 16) (four : bytes.length = 4) :
    nativeOf (inetAddress bytes port) =
      bytesOf afInet ++ (bytesOf (puint16SwapBytes port) ++ (bytes ++ List.replicate 8 0)) := by
  have stored : (inetAddress bytes port).bytes 4 = bytes := bytes_setAddr four (by decide)
  rw [show nativeOf (inetAddress bytes port) = bytesOf afInet ++ bytesOf (puint16SwapBytes port) ++
    (inetAddress bytes port).bytes 4 ++ List.replicate 8 0 from rfl, stored, List.append_assoc, List.append_assoc]

theorem nativeOf_inet6 {bytes : List Byte} (port : BitVec 16) (flowinfo scopeId : BitVec 32) (all : bytes.length = 16) :
    nativeOf (inet6Address bytes port flowinfo scopeId) =
      bytesOf afInet6 ++ (bytesOf (puint16SwapBytes port) ++ (bytesOf flowinfo ++ (bytes ++ bytesOf scopeId))) := by
  have stored : (inet6Address bytes port flowinfo scopeId).bytes 16 = bytes := bytes_setAddr all (by decide)
  rw [show nativeOf (inet6Address bytes port flowinfo scopeId) = bytesOf afInet6 ++ bytesOf (puint16SwapBytes port) ++
    bytesOf flowinfo ++ (inet6Address bytes port flowinfo scopeId).bytes 16 ++ bytesOf scopeId from rfl, stored,
    List.append_assoc, List.append_assoc, List.append_assoc]

/-- The address is what its bytes are read as. -/
theorem zsocketAddressNewFromNative_nativeOf (formed : WellFormed a)
    (enough : zsocketAddressGetNativeSize (some a) ≤ len.toNat) (room : len.toNat ≤ dest.size) :
    zsocketAddressNewFromNative true (some (dest.patch 0 (nativeOf a))) len = .ok (some a) := by
  have some_len : len ≠ 0 := by
    rintro rfl
    cases formed <;> contradiction
  have inside : len.toNat ≤ (dest.patch 0 (nativeOf a)).size := room
  cases formed with
  | inet bytes port four =>
      have parts := nativeOf_inet port four
      have enough : sizeofSockaddrIn ≤ len.toNat := enough
      have long : 16 ≤ len.toNat := enough
      have sized : 2 ≤ (dest.patch 0 (nativeOf (inetAddress bytes port))).size := by omega
      have family := slice_nativeOf _ dest 0 2 [] (bytesOf afInet) _ parts rfl rfl
      have port_read := slice_nativeOf _ dest 2 2 (bytesOf afInet) (bytesOf (puint16SwapBytes port)) _ parts rfl rfl
      have addr := slice_nativeOf _ dest 4 4 (bytesOf afInet ++ bytesOf (puint16SwapBytes port)) bytes _
        (parts.trans (List.append_assoc _ _ _).symm) rfl four
      rw [zsocketAddressNewFromNative_eq some_len inside sized, family, wordOf_bytesOf (by decide), if_pos rfl,
        if_neg (Nat.not_lt.mpr enough), addr, port_read, portOf_bytesOf]
  | inet6 bytes port flowinfo scopeId all =>
      have parts := nativeOf_inet6 port flowinfo scopeId all
      have parts₂ := parts.trans (List.append_assoc _ _ _).symm
      have parts₃ := parts₂.trans (List.append_assoc _ _ _).symm
      have parts₄ := parts₃.trans (List.append_assoc _ _ _).symm
      have enough : sizeofSockaddrIn6 ≤ len.toNat := enough
      have long : 28 ≤ len.toNat := enough
      have sized : 2 ≤ (dest.patch 0 (nativeOf (inet6Address bytes port flowinfo scopeId))).size := by omega
      have family := slice_nativeOf _ dest 0 2 [] (bytesOf afInet6) _ parts rfl rfl
      have port_read := slice_nativeOf _ dest 2 2 _ _ _ parts rfl rfl
      have flow_read := slice_nativeOf _ dest 4 4 _ _ _ parts₂ rfl rfl
      have addr := slice_nativeOf _ dest 8 16 _ _ _ parts₃ rfl all
      have scope_read := slice_nativeOf _ dest 24 4 _ (bytesOf scopeId) [] (by rw [parts₄, List.append_nil])
        (by simp [all]) rfl
      rw [zsocketAddressNewFromNative_eq some_len inside sized, family, wordOf_bytesOf (by decide), if_neg (by decide),
        if_pos rfl, if_neg (Nat.not_lt.mpr enough), addr, port_read, flow_read, scope_read, portOf_bytesOf,
        wordOf_bytesOf (by decide), wordOf_bytesOf (by decide)]

/-! ## Round trips -/

/-- An address that the library has made fits in every buffer of its size.  The bytes behind it
    are not written, and what is read from the buffer is the address. -/
theorem address_round_trip (built : Built a) (room : destlen.toNat ≤ dest.size) :
    (destlen.toNat < zsocketAddressGetNativeSize (some a) →
      zsocketAddressToNative (some a) (some dest) destlen = .ok (false, some dest)) ∧
    (zsocketAddressGetNativeSize (some a) ≤ destlen.toNat →
      ∃ dest', zsocketAddressToNative (some a) (some dest) destlen = .ok (true, some dest') ∧ dest'.size = dest.size ∧
        (∀ i, zsocketAddressGetNativeSize (some a) ≤ i → dest'.byte i = dest.byte i) ∧
        ∀ len : PSize, zsocketAddressGetNativeSize (some a) ≤ len.toNat → len.toNat ≤ dest.size →
          zsocketAddressNewFromNative true (some dest') len = .ok (some a)) := by
  have formed := built.wellFormed
  constructor
  · intro short
    exact zsocketAddressToNative_short formed.known short
  · intro fits
    refine ⟨dest.patch 0 (nativeOf a), zsocketAddressToNative_eq formed.known fits room, rfl, fun i behind => ?_,
      fun len enough inside => zsocketAddressNewFromNative_nativeOf formed enough inside⟩
    apply Region.byte_patch_outside
    rw [length_nativeOf]
    omega

/-- The address `::1` with a flow label, in a buffer that has more room. -/
theorem address_round_trip_loopback : ∃ a dest', zsocketAddressNewLoopback true .inet6 80 = some a ∧
    zsocketAddressToNative (some (zsocketAddressSetFlowInfo a 7)) (some (Region.zeros 40)) 40 = .ok (true, some dest') ∧
      zsocketAddressNewFromNative true (some dest') 28 = .ok (some (zsocketAddressSetFlowInfo a 7)) := by
  have made : zsocketAddressNewLoopback true .inet6 80 = some (inet6Address in6addrLoopback 80 0 0) := rfl
  have built := (Built.loopback made).setFlowInfo 7
  have room : (40 : PSize).toNat ≤ (Region.zeros 40).size := by decide
  obtain ⟨dest', written, -, -, read⟩ := (address_round_trip built room).2 (by decide)
  exact ⟨_, dest', rfl, written, read 28 (by decide) (by decide)⟩

/-- The bytes of an IPv4 address that was read: those that were read, and the padding is zero. -/
theorem nativeOf_inet_read (family : wordOf 16 (native.slice 0 2) = afInet) :
    nativeOf (inetAddress (native.slice 4 4) (portOf (native.slice 2 2))) = native.slice 0 8 ++ List.replicate 8 0 := by
  rw [nativeOf_inet _ Region.length_slice, ← family, bytesOf_wordOf (by decide) Region.length_slice,
    bytesOf_portOf Region.length_slice, ← List.append_assoc, ← List.append_assoc, Region.slice_append rfl, Region.slice_append rfl]

/-- The bytes of an IPv6 address that was read are those that were read. -/
theorem nativeOf_inet6_read (family : wordOf 16 (native.slice 0 2) = afInet6) :
    nativeOf (inet6Address (native.slice 8 16) (portOf (native.slice 2 2)) (wordOf 32 (native.slice 4 4))
      (wordOf 32 (native.slice 24 4))) = native.slice 0 28 := by
  rw [nativeOf_inet6 _ _ _ Region.length_slice, ← family, bytesOf_wordOf (by decide) Region.length_slice,
    bytesOf_portOf Region.length_slice, bytesOf_wordOf (by decide) Region.length_slice,
    bytesOf_wordOf (by decide) Region.length_slice, ← List.append_assoc, ← List.append_assoc, ← List.append_assoc,
    Region.slice_append rfl, Region.slice_append rfl, Region.slice_append rfl, Region.slice_append rfl]

/-- Only the family of a buffer of one byte is read behind its end. -/
theorem zsocketAddressNewFromNative_fault_iff (honest : len.toNat ≤ native.size) :
    zsocketAddressNewFromNative true (some native) len = .error .fault ↔ len ≠ 0 ∧ native.size < 2 := by
  constructor
  · intro faulted
    have some_len : len ≠ 0 := by
      rintro rfl
      simp [zsocketAddressNewFromNative] at faulted
    refine ⟨some_len, Nat.lt_of_not_le fun sized => ?_⟩
    rw [zsocketAddressNewFromNative_eq some_len honest sized] at faulted
    contradiction
  · rintro ⟨some_len, small⟩
    simp only [zsocketAddressNewFromNative, if_neg some_len]
    rw [if_neg (by decide), Region.loadBytes, if_neg (by omega)]
    rfl

/-- A family and a length that fit are all that is asked. -/
theorem zsocketAddressNewFromNative_ok_iff (honest : len.toNat ≤ native.size) :
    (∃ a, zsocketAddressNewFromNative true (some native) len = .ok (some a)) ↔
      (wordOf 16 (native.slice 0 2) = afInet ∧ sizeofSockaddrIn ≤ len.toNat) ∨
        (wordOf 16 (native.slice 0 2) = afInet6 ∧ sizeofSockaddrIn6 ≤ len.toNat) := by
  constructor
  · rintro ⟨a, result⟩
    obtain ⟨m, same, ⟨family, enough, -⟩ | ⟨family, enough, -⟩⟩ := zsocketAddressNewFromNative_ok result
    · cases same
      exact .inl ⟨family, enough⟩
    · cases same
      exact .inr ⟨family, enough⟩
  · rintro (⟨family, enough⟩ | ⟨family, enough⟩)
    · have long : 16 ≤ len.toNat := enough
      have some_len : len ≠ 0 := by
        rintro rfl
        contradiction
      rw [zsocketAddressNewFromNative_eq some_len honest (by omega), if_pos family, if_neg (Nat.not_lt.mpr enough)]
      exact ⟨_, rfl⟩
    · have long : 28 ≤ len.toNat := enough
      have some_len : len ≠ 0 := by
        rintro rfl
        contradiction
      have other : wordOf 16 (native.slice 0 2) ≠ afInet := by
        rw [family]
        decide
      rw [zsocketAddressNewFromNative_eq some_len honest (by omega), if_neg other, if_pos family,
        if_neg (Nat.not_lt.mpr enough)]
      exact ⟨_, rfl⟩

/-- An address of the system that is read from an honest buffer.  Only the family of a buffer
    of one byte is read behind its end; a family and a length that fit are all that is asked;
    and what is written again are the bytes that were read, but for the padding. -/
theorem native_round_trip (honest : len.toNat ≤ native.size) :
    (zsocketAddressNewFromNative true (some native) len = .error .fault ↔ len ≠ 0 ∧ native.size < 2) ∧
    ((∃ a, zsocketAddressNewFromNative true (some native) len = .ok (some a)) ↔
      (wordOf 16 (native.slice 0 2) = afInet ∧ sizeofSockaddrIn ≤ len.toNat) ∨
        (wordOf 16 (native.slice 0 2) = afInet6 ∧ sizeofSockaddrIn6 ≤ len.toNat)) ∧
    ∀ a, zsocketAddressNewFromNative true (some native) len = .ok (some a) →
      ∀ (dest : Region) (destlen : PSize), zsocketAddressGetNativeSize (some a) ≤ destlen.toNat → destlen.toNat ≤ dest.size →
        ∃ dest', zsocketAddressToNative (some a) (some dest) destlen = .ok (true, some dest') ∧
          dest'.slice 0 (zsocketAddressGetNativeSize (some a)) =
            if a.family = .inet then native.slice 0 8 ++ List.replicate 8 0 else native.slice 0 sizeofSockaddrIn6 := by
  refine ⟨zsocketAddressNewFromNative_fault_iff honest, zsocketAddressNewFromNative_ok_iff honest, ?_⟩
  intro a result dest destlen fits room
  have known := (wellFormed_of_fromNative result).known
  refine ⟨_, zsocketAddressToNative_eq known fits room, ?_⟩
  rw [← length_nativeOf, Region.slice_patch]
  obtain ⟨m, same, ⟨family, -, rfl⟩ | ⟨family, -, rfl⟩⟩ := zsocketAddressNewFromNative_ok result
  · cases same
    exact nativeOf_inet_read family
  · cases same
    exact nativeOf_inet6_read family

/-- The address 127.0.0.1 with a padding that is not zero. -/
theorem native_round_trip_padding : ∃ a dest',
    zsocketAddressNewFromNative true (some (.ofList [2, 0, 0, 80, 127, 0, 0, 1, 9, 9, 9, 9, 9, 9, 9, 9])) 16 = .ok (some a) ∧
    zsocketAddressToNative (some a) (some (.zeros 20)) 20 = .ok (true, some dest') ∧
      dest'.slice 0 16 = [2, 0, 0, 80, 127, 0, 0, 1, 0, 0, 0, 0, 0, 0, 0, 0] := by
  have honest : (16 : PSize).toNat ≤ (Region.ofList [2, 0, 0, 80, 127, 0, 0, 1, 9, 9, 9, 9, 9, 9, 9, 9]).size := by decide
  obtain ⟨-, -, written⟩ := native_round_trip honest
  obtain ⟨dest', wrote, bytes⟩ := written (inetAddress [127, 0, 0, 1] 80) rfl (.zeros 20) 20 (by decide) (by decide)
  exact ⟨_, dest', rfl, wrote, bytes⟩

end Plibsys.SocketAddress
