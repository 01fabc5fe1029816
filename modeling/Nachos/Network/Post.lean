import Nachos.Machine.Network
import Nachos.Threads.Device

/-!
# The post office

`post.cc`: a machine with its mailboxes, its postal worker and any number of threads that send
and receive mail, among machines that send mail to it. Every machine has the same number of
mailboxes. The locks of `synch.cc` do nothing.
-/
namespace Nachos

open Concurrent Bytes

def MaxMailSize : ℕ := MaxPacketSize - sizeofHeader

/-- `class Mail`. Of `data` only the bytes that the header counts are ever set or read. -/
structure Mail where
  pktHdr : PacketHeader
  mailHdr : MailHeader
  data : List Byte
  deriving DecidableEq

/-- The assertions of `post.cc`, of the network below it, and of `Condition::Wait`, which always
fails. -/
inductive PostAssert
  | mailSize
  | boxRange
  | network (e : NetworkAssert)
  | conditionWait
  deriving DecidableEq

/-- `Mail::Mail`. -/
def Mail.new (pktH : PacketHeader) (mailH : MailHeader) (msgData : List Byte) :
    Except PostAssert Mail :=
  if mailH.length.toNat ≤ MaxMailSize then .ok ⟨pktH, mailH, msgData.take mailH.length.toNat⟩
  else .error .mailSize

/-- A call of `PostOffice::Send`, with what the two buffers hold that are allocated on the way,
and whether the packet is lost. -/
structure SendCall where
  pktHdr : PacketHeader
  mailHdr : MailHeader
  data : ℕ → Byte
  postBuffer : ℕ → Byte
  wireBuffer : ℕ → Byte
  lost : Bool

/-- `0 <= box && box < numBoxes`. -/
def BoxInRange (numBoxes box : Int) : Prop := 0 ≤ box ∧ box < numBoxes

instance (numBoxes box : Int) : Decidable (BoxInRange numBoxes box) :=
  inferInstanceAs (Decidable (_ ∧ _))

/-- `PostOffice::Send` on the machine with this network, up to `messageSent->P()`. -/
def SendCall.send (c : SendCall) (numBoxes : Int) (network : Network) (netAddr : BitVec 32) :
    Except PostAssert (Option (BitVec 32 × Wire)) :=
  if ¬c.mailHdr.length.toNat ≤ MaxMailSize then .error .mailSize
  else if ¬BoxInRange numBoxes c.mailHdr.to.toInt then .error .boxRange
  else
    let pktHdr : PacketHeader :=
      ⟨c.pktHdr.to, netAddr, c.mailHdr.length + BitVec.ofNat 32 sizeofHeader⟩
    let buffer := overlay (overlay (bytesAt c.postBuffer MaxPacketSize) 0 c.mailHdr.toBytes)
      sizeofHeader (bytesAt c.data c.mailHdr.length.toNat)
    (network.send c.wireBuffer c.lost pktHdr buffer).mapError .network

/-- What a call of `Send` was to bring across, and the address of the machine it was made on. -/
structure Letter where
  netAddr : BitVec 32
  mailHdr : MailHeader
  data : ℕ → Byte

/-- The mail this letter is to become on the machine `ident`. -/
def Letter.mail (ident : BitVec 32) (l : Letter) : Mail where
  pktHdr := ⟨ident, l.netAddr, l.mailHdr.length + BitVec.ofNat 32 sizeofHeader⟩
  mailHdr := l.mailHdr
  data := bytesAt l.data l.mailHdr.length.toNat

/-- `class PostOffice` and what is below it. `sock` are the packets in the socket, `sending` counts
the interrupts scheduled by `Network::Send`, and `failed` is set when an assertion fails in a
handler. `arrived`, the letters whose packets the host has put into the socket, is only noted. -/
structure PostOffice where
  network : Network
  boxes : Int → List Mail
  sock : List Wire
  sending : ℕ
  failed : Bool
  arrived : List Letter

inductive PostSem
  | messageAvailable
  | messageSent
  deriving DecidableEq

namespace PostOffice

/-- The letters whose packets have been read from the socket. -/
def readLetters (d : PostOffice) : List Letter :=
  d.arrived.take (d.arrived.length - d.sock.length)

/-- The host takes a packet that is sent to this machine; it does not lose it here. -/
def deposit (d : PostOffice) (l : Letter) : Option (BitVec 32 × Wire) → PostOffice
  | some (toName, wire) =>
    if toName = d.network.ident then
      { d with sock := d.sock ++ [wire], arrived := d.arrived ++ [l] }
    else d
  | none => d

/-- What happens to the post office from outside: `NetworkReadPoll`, `NetworkSendDone`, and a call
of `Send` on another machine. Its packet can be noticed by a poll only. -/
inductive Interrupt
  | readPoll
  | sendDone
  | remote (netAddr : BitVec 32) (c : SendCall)

/-- `IncomingPacket` and `PacketSent` raise the semaphores. -/
def handlers (numBoxes : Int) : Handlers PostSem PostOffice Interrupt
  | .readPoll, d =>
    match d.network.checkPktAvail d.sock with
    | .ok none => some (d, none)
    | .ok (some (network, sock)) =>
      some ({ d with network := network, sock := sock }, some .messageAvailable)
    | .error _ => some ({ d with failed := true }, none)
  | .sendDone, d =>
    if d.sending = 0 then none
    else
      some ({ d with
        sending := d.sending - 1
        network := { d.network with sendBusy := false } }, some .messageSent)
  | .remote netAddr c, d =>
    -- of the other network only its address and `sendBusy` are looked at
    match c.send numBoxes (.new netAddr fun _ => 0) netAddr with
    | .ok packet => some (d.deposit ⟨netAddr, c.mailHdr, c.data⟩ packet, none)
    | .error _ => none

/-- Where a thread is. `opening` is in the constructor, and the postal worker is at `waiting`,
`receiving` or `delivering`, with its buffer. -/
inductive Pc
  | opening
  | waiting (buffer : List Byte)
  | receiving (buffer : List Byte)
  | delivering (pktHdr : PacketHeader) (buffer : List Byte)
  | user
  | sending
  | aborted
  | tick
  | yield
  | fork
  | exit

inductive Ev
  | received (pktHdr : PacketHeader) (data : List Byte)
  | put (box : Int) (mail : Mail)
  | got (box : Int) (mail : Mail)
  | assertFailed (e : PostAssert)
  deriving DecidableEq

inductive Choice
  | send (c : SendCall)
  | receive (box : Int)
  | tick
  | yield
  | fork
  | exit

/-- `PostOffice::Send` up to `messageSent->P()`. -/
def send (numBoxes : Int) (netAddr : BitVec 32) (c : SendCall) (d : PostOffice) :
    Pc × PostOffice × List Ev :=
  match c.send numBoxes d.network netAddr with
  | .ok packet =>
    (.sending, { d.deposit ⟨netAddr, c.mailHdr, c.data⟩ packet with sending := d.sending + 1 }, [])
  | .error e => (.aborted, d, [.assertFailed e])

/-- `PostOffice::Receive` with `MailBox::Get` and `SynchList::Remove`. -/
def receive (numBoxes : Int) (box : Int) (d : PostOffice) : Pc × PostOffice × List Ev :=
  if ¬BoxInRange numBoxes box then (.aborted, d, [.assertFailed .boxRange])
  else
    match d.boxes box with
    | [] => (.aborted, d, [.assertFailed .conditionWait])
    | mail :: messages =>
      let d' := { d with boxes := Function.update d.boxes box messages }
      if mail.mailHdr.length.toNat ≤ MaxMailSize then (.user, d', [.got box mail])
      else (.aborted, d', [.got box mail, .assertFailed .mailSize])

/-- The call `network->Receive(buffer)` in `PostalDelivery`. -/
def postalReceive (buffer : List Byte) (d : PostOffice) : Pc × PostOffice × List Ev :=
  let (pktHdr, buffer', network) := d.network.receive buffer
  (.delivering pktHdr buffer', { d with network := network },
    [.received pktHdr (buffer'.take pktHdr.length.toNat)])

/-- The rest of the loop in `PostalDelivery`, with `MailBox::Put` and `SynchList::Append`. -/
def postalPut (numBoxes : Int) (pktHdr : PacketHeader) (buffer : List Byte) (d : PostOffice) :
    Pc × PostOffice × List Ev :=
  let mailHdr : MailHeader := .ofBytes buffer
  let box := mailHdr.to.toInt
  if ¬BoxInRange numBoxes box then (.aborted, d, [.assertFailed .boxRange])
  else if ¬mailHdr.length.toNat ≤ MaxMailSize then (.aborted, d, [.assertFailed .mailSize])
  else
    match Mail.new pktHdr mailHdr (buffer.drop sizeofHeader) with
    | .ok mail =>
      (.waiting buffer,
        { d with boxes := Function.update d.boxes box (d.boxes box ++ [mail]) }, [.put box mail])
    | .error e => (.aborted, d, [.assertFailed e])

def user (numBoxes : Int) (netAddr : BitVec 32) (c : Choice) (d : PostOffice) :
    Option (Pc × PostOffice × List Ev) :=
  match c with
  | .send c => some (d.send numBoxes netAddr c)
  | .receive box => some (d.receive numBoxes box)
  | .tick => some (.tick, d, [])
  | .yield => some (.yield, d, [])
  | .fork => some (.fork, d, [])
  | .exit => some (.exit, d, [])

def code (numBoxes : Int) (netAddr : BitVec 32) (fresh : ℕ → Byte) :
    Pc → Instr PostSem Pc PostOffice Ev Choice
  | .opening => .fork (.waiting (bytesAt fresh MaxPacketSize)) (fun _ => .user) fun _ d => d
  | .waiting buffer => .P .messageAvailable (.receiving buffer)
  | .receiving buffer => .act fun _ d => some (d.postalReceive buffer)
  | .delivering pktHdr buffer => .act fun _ d => some (d.postalPut numBoxes pktHdr buffer)
  | .user => .act (user numBoxes netAddr)
  | .sending => .P .messageSent .user
  | .aborted => .stop
  | .tick => .tick .user
  | .yield => .yield .user
  | .fork => .fork .user (fun _ => .user) fun _ d => d
  | .exit => .finish

/-- A machine with `numBoxes` mailboxes and the address `addr`. `fresh` is what the memory of the
network and of the worker's buffer holds at first. -/
def program (numBoxes : Int) (addr : BitVec 32) (fresh : ℕ → Byte) :
    Program PostSem Pc PostOffice Ev Choice where
  code _ := code numBoxes addr fresh
  value _ := 0
  start := .opening
  data := ⟨.new addr fresh, fun _ => [], [], 0, false, []⟩
  device _ := false
  switchOut _ d := d
  switchIn _ d := d
  interrupt d := d

end PostOffice

end Nachos
