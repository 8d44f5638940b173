import Plibsys.Socket.AddressRoundTrip

/-! # Wildcard and loopback addresses

An IPv4 address is a number in the order of the network, which `zsocket_address_is_any` and
`zsocket_address_is_loopback` turn into one of the host before they look at it.
-/

namespace Plibsys.SocketAddress

open Support

variable {a : PSocketAddress}

theorem addr_inetAddress (bytes : List Byte) (port : BitVec 16) {i : Nat} (inside : i < 16) :
    (inetAddress bytes port).addr[i] = bytes.getD i 0 := by
  simp [inetAddress, PSocketAddress.setAddr, PSocketAddress.zero]

theorem toList_inetAddress (b₀ b₁ b₂ b₃ : Byte) (port : BitVec 16) :
    (inetAddress [b₀, b₁, b₂, b₃] port).addr.toList = [b₀, b₁, b₂, b₃] ++ List.replicate 12 0 := by
  apply List.ext_getElem
  · simp
  · intro i inside inside'
    rw [Vector.length_toList] at inside
    rw [Vector.getElem_toList, addr_inetAddress _ _ inside]
    interval_cases i <;> rfl

theorem addr4_inetAddress (b₀ b₁ b₂ b₃ : Byte) (port : BitVec 16) :
    (addr4 (inetAddress [b₀, b₁, b₂, b₃] port)).toNat =
      b₃.toNat + 256 * (b₂.toNat + 256 * (b₁.toNat + 256 * b₀.toNat)) := by
  have stored : (inetAddress [b₀, b₁, b₂, b₃] port).bytes 4 = [b₀, b₁, b₂, b₃] := bytes_setAddr rfl (by decide)
  have small₀ := b₀.isLt
  have small₁ := b₁.isLt
  have small₂ := b₂.isLt
  have small₃ := b₃.isLt
  rw [addr4, stored, puint32SwapBytes_wordOf rfl, wordOf, BitVec.toNat_ofNat]
  simp only [List.reverse_cons, List.reverse_nil, List.nil_append, List.cons_append, decode]
  omega

/-- The mask of `zsocket_address_is_loopback` leaves the first byte of an address. -/
theorem masked_eq (x : BitVec 32) : x &&& 0xff000000#32 = 0x7f000000#32 ↔ x.toNat / 0x1000000 = 127 := by
  have mask : x &&& 0xff000000#32 = (x >>> 24) <<< 24 := by
    apply BitVec.eq_of_getLsbD_eq
    intro i inside
    simp only [BitVec.getLsbD_and, BitVec.getLsbD_shiftLeft, BitVec.getLsbD_ushiftRight]
    interval_cases i <;> simp
  rw [mask, ← BitVec.toNat_inj, BitVec.toNat_shiftLeft, BitVec.toNat_ushiftRight, Nat.shiftLeft_eq, Nat.shiftRight_eq_div_pow]
  have small := x.isLt
  simp only [BitVec.toNat_ofNat]
  omega

theorem zsocketAddressIsAny_inet (b₀ b₁ b₂ b₃ : Byte) (port : BitVec 16) :
    zsocketAddressIsAny (some (inetAddress [b₀, b₁, b₂, b₃] port)) = true ↔ [b₀, b₁, b₂, b₃] = [0, 0, 0, 0] := by
  have value := addr4_inetAddress b₀ b₁ b₂ b₃ port
  change (addr4 (inetAddress [b₀, b₁, b₂, b₃] port) == 0#32) = true ↔ [b₀, b₁, b₂, b₃] = [0#8, 0#8, 0#8, 0#8]
  rw [beq_iff_eq, ← BitVec.toNat_inj, value]
  simp only [List.cons.injEq, and_true, ← BitVec.toNat_inj, BitVec.toNat_ofNat]
  omega

theorem zsocketAddressIsLoopback_inet (b₀ b₁ b₂ b₃ : Byte) (port : BitVec 16) :
    zsocketAddressIsLoopback (some (inetAddress [b₀, b₁, b₂, b₃] port)) = true ↔ b₀ = 127 := by
  have value := addr4_inetAddress b₀ b₁ b₂ b₃ port
  have small₁ := b₁.isLt
  have small₂ := b₂.isLt
  have small₃ := b₃.isLt
  change (addr4 (inetAddress [b₀, b₁, b₂, b₃] port) &&& 0xff000000#32 == 0x7f000000#32) = true ↔ b₀ = 127#8
  rw [beq_iff_eq, masked_eq, value, ← BitVec.toNat_inj]
  simp only [BitVec.toNat_ofNat]
  omega

/-- The wildcard addresses are those of zeros, the loopback addresses are 127.0.0.0/8 and `::1`,
    and no address is both. -/
theorem classes_of_addresses (built : Built a) :
    (zsocketAddressIsAny (some a) = true ↔ ∀ b ∈ a.addr.toList, b = 0) ∧
    (zsocketAddressIsLoopback (some a) = true ↔
      a.family = .inet ∧ a.addr[0] = 127 ∨ a.family = .inet6 ∧ a.addr.toList = in6addrLoopback) ∧
    ¬ (zsocketAddressIsAny (some a) = true ∧ zsocketAddressIsLoopback (some a) = true) := by
  have any : zsocketAddressIsAny (some a) = true ↔ ∀ b ∈ a.addr.toList, b = 0 := by
    cases built.wellFormed with
    | inet bytes port four =>
        obtain ⟨b₀, b₁, b₂, b₃, rfl⟩ := List.length_eq_four.mp four
        rw [zsocketAddressIsAny_inet, toList_inetAddress]
        simp
    | inet6 bytes port flowinfo scopeId all =>
        change ((inet6Address bytes port flowinfo scopeId).bytes 16 == List.replicate 16 0) = true ↔ _
        rw [beq_iff_eq, PSocketAddress.bytes, List.take_of_length_le (by simp), List.eq_replicate_iff]
        simp
  have loopback : zsocketAddressIsLoopback (some a) = true ↔
      a.family = .inet ∧ a.addr[0] = 127 ∨ a.family = .inet6 ∧ a.addr.toList = in6addrLoopback := by
    cases built.wellFormed with
    | inet bytes port four =>
        obtain ⟨b₀, b₁, b₂, b₃, rfl⟩ := List.length_eq_four.mp four
        have first : (inetAddress [b₀, b₁, b₂, b₃] port).addr[0] = b₀ := addr_inetAddress _ _ (by decide)
        have family : (inetAddress [b₀, b₁, b₂, b₃] port).family = .inet := rfl
        rw [zsocketAddressIsLoopback_inet, first, family]
        simp
    | inet6 bytes port flowinfo scopeId all =>
        have family : (inet6Address bytes port flowinfo scopeId).family = .inet6 := rfl
        change ((inet6Address bytes port flowinfo scopeId).bytes 16 == in6addrLoopback) = true ↔ _
        rw [beq_iff_eq, PSocketAddress.bytes, List.take_of_length_le (by simp), family]
        simp
  refine ⟨any, loopback, ?_⟩
  rw [any, loopback]
  rintro ⟨zeros, ⟨-, first⟩ | ⟨-, all⟩⟩
  · have zero := zeros a.addr[0] (by simp)
    rw [zero] at first
    contradiction
  · have zero := zeros 1 (by rw [all]; decide)
    contradiction

end Plibsys.SocketAddress
