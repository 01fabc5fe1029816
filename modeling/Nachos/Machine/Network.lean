import Nachos.Lib.Bytes

/-!
# The network

`network.cc`: packets of a fixed size go through datagram sockets of the host, and one incoming
packet at a time is buffered. What `new` and fresh members hold before they are filled is left
open.
-/
namespace Nachos

open Bytes

/-- The bytes at a pointer. -/
def bytesAt (p : ℕ → Byte) (n : ℕ) : List Byte := (List.range n).map p

@[simp] theorem length_bytesAt (p : ℕ → Byte) (n : ℕ) : (bytesAt p n).length = n := by
  simp [bytesAt]

/-- The three fields that both headers have. -/
structure Header where
  «to» : BitVec 32
  «from» : BitVec 32
  length : BitVec 32
  deriving DecidableEq

/-- `class PacketHeader`. -/
abbrev PacketHeader := Header

/-- `class MailHeader`. -/
abbrev MailHeader := Header

/-- `sizeof(PacketHeader)` and `sizeof(MailHeader)`. -/
def sizeofHeader : ℕ := 12

def MaxWireSize : ℕ := 64

def MaxPacketSize : ℕ := MaxWireSize - sizeofHeader

namespace Header

def toBytes (h : Header) : List Byte := ofWord h.to ++ ofWord h.from ++ ofWord h.length

def ofBytes (bs : List Byte) : Header := ⟨toWord bs, toWord (bs.drop 4), toWord (bs.drop 8)⟩

@[simp] theorem length_toBytes (h : Header) : h.toBytes.length = sizeofHeader := rfl

@[simp] theorem ofBytes_toBytes (h : Header) (bs : List Byte) : ofBytes (h.toBytes ++ bs) = h := by
  have hfrom : (h.toBytes ++ bs).drop 4 = ofWord h.from ++ (ofWord h.length ++ bs) := rfl
  have hlength : (h.toBytes ++ bs).drop 8 = ofWord h.length ++ bs := rfl
  rw [ofBytes, hfrom, hlength, toBytes, List.append_assoc, List.append_assoc, toWord_ofWord,
    toWord_ofWord, toWord_ofWord]

/-- Only the first bytes are looked at. -/
theorem ofBytes_take {bs : List Byte} {n : ℕ} (hn : sizeofHeader ≤ n) :
    ofBytes (bs.take n) = ofBytes bs := by
  have hword : ∀ k, k + 4 ≤ n → toWord ((bs.take n).drop k) = toWord (bs.drop k) := by
    intro k hk
    have hget : ∀ i < 4, ((bs.take n).drop k).getD i 0 = (bs.drop k).getD i 0 := by
      intro i hi
      simp only [List.getD_eq_getElem?_getD, List.getElem?_drop]
      rw [List.getElem?_take_of_lt (by omega)]
    simp only [toWord, hget 0 (by omega), hget 1 (by omega), hget 2 (by omega),
      hget 3 (by omega)]
  have hn : 12 ≤ n := hn
  have h0 := hword 0 (by omega)
  rw [List.drop_zero, List.drop_zero] at h0
  rw [ofBytes, h0, hword 4 (by omega), hword 8 (by omega), ofBytes]

end Header

/-- What goes into a socket at once. -/
abbrev Wire := List Byte

/-- The assertions of `network.cc` and, for a packet of another size, of `ReadFromSocket`. -/
inductive NetworkAssert
  | send
  | packetSize
  | received
  deriving DecidableEq

/-- `class Network`, as far as it is looked at. -/
structure Network where
  ident : BitVec 32
  sendBusy : Bool
  inHdr : PacketHeader
  inbox : List Byte

namespace Network

/-- The constructor. `fresh` is what the memory of the new object holds. -/
def new (addr : BitVec 32) (fresh : ℕ → Byte) : Network where
  ident := addr
  sendBusy := false
  inHdr := { Header.ofBytes (bytesAt fresh sizeofHeader) with length := 0 }
  inbox := bytesAt fresh MaxPacketSize

/-- `Network::Send` after the interrupt has been scheduled: the machine whose socket the packet is
sent to, and the packet. `buffer` is what the new buffer holds, and `lost` that the packet is. -/
def send (n : Network) (buffer : ℕ → Byte) (lost : Bool) (hdr : PacketHeader) (data : List Byte) :
    Except NetworkAssert (Option (BitVec 32 × Wire)) :=
  if n.sendBusy = false ∧ 0 < hdr.length.toNat ∧ hdr.length.toNat ≤ MaxPacketSize ∧
      hdr.from = n.ident then
    if lost then .ok none
    else
      .ok (some (hdr.to,
        overlay (overlay (bytesAt buffer MaxWireSize) 0 hdr.toBytes) sizeofHeader
          (data.take hdr.length.toNat)))
  else .error .send

/-- `Network::CheckPktAvail` with the packets in the socket, or `none` where it does nothing. -/
def checkPktAvail (n : Network) (sock : List Wire) :
    Except NetworkAssert (Option (Network × List Wire)) :=
  if n.inHdr.length ≠ 0 then .ok none
  else
    match sock with
    | [] => .ok none
    | buffer :: sock =>
      if buffer.length ≠ MaxWireSize then .error .packetSize
      else
        let inHdr := Header.ofBytes buffer
        if inHdr.to = n.ident ∧ inHdr.length.toNat ≤ MaxPacketSize then
          .ok (some ({ n with
            inHdr := inHdr
            inbox := overlay n.inbox 0 ((buffer.drop sizeofHeader).take inHdr.length.toNat) },
            sock))
        else .error .received

/-- `Network::Receive` into the buffer `data`. -/
def receive (n : Network) (data : List Byte) : PacketHeader × List Byte × Network :=
  (n.inHdr,
    if n.inHdr.length ≠ 0 then overlay data 0 (n.inbox.take n.inHdr.length.toNat) else data,
    { n with inHdr := { n.inHdr with length := 0 } })

end Network

end Nachos
