import Nachos.Network.Post

/-!
# Mail delivery

Every packet is read from the socket, buffered, taken by the postal worker and put into its box.
The invariant follows the letters through these places: nothing is lost between them, and nothing
is there twice.
-/
namespace Nachos

open Concurrent Bytes

/-! ## Packets -/

/-- The mail in a packet, by the two headers. -/
def unpack (pktHdr : PacketHeader) (bytes : List Byte) : Mail where
  pktHdr := pktHdr
  mailHdr := .ofBytes bytes
  data := (bytes.drop sizeofHeader).take (Header.ofBytes bytes).length.toNat

/-- The mail in a packet that has not been read. -/
def inWire (wire : Wire) : Mail := unpack (.ofBytes wire) (wire.drop sizeofHeader)

/-- The mail in the one packet that can be buffered. -/
def Network.buffered (n : Network) : List Mail :=
  if n.inHdr.length = 0 then [] else [unpack n.inHdr n.inbox]

/-- What `Send` has checked and filled in. -/
structure Legal (numBoxes : Int) (addr : BitVec 32) (m : Mail) : Prop where
  address : m.pktHdr.to = addr
  counted : m.pktHdr.length.toNat = sizeofHeader + m.mailHdr.length.toNat
  size : m.mailHdr.length.toNat ≤ MaxMailSize
  box : BoxInRange numBoxes m.mailHdr.to.toInt

variable {numBoxes : Int} {addr : BitVec 32}

theorem Legal.length_le {m : Mail} (h : Legal numBoxes addr m) :
    m.pktHdr.length.toNat ≤ MaxPacketSize := by
  have hsize : m.mailHdr.length.toNat ≤ 40 := h.size
  have hcounted := h.counted
  unfold sizeofHeader at hcounted
  unfold MaxPacketSize MaxWireSize sizeofHeader
  omega

theorem Legal.length_ne_zero {m : Mail} (h : Legal numBoxes addr m) : m.pktHdr.length ≠ 0 := by
  intro h0
  have hcounted := h.counted
  simp only [h0, BitVec.ofNat_eq_ofNat, BitVec.toNat_ofNat, sizeofHeader] at hcounted
  omega

/-- Copies that agree on the bytes that count hold the same mail. -/
theorem unpack_congr {pktHdr : PacketHeader} {bs bs' : List Byte} {n : ℕ}
    (h : bs.take n = bs'.take n) (hn : sizeofHeader + (Header.ofBytes bs).length.toNat ≤ n) :
    unpack pktHdr bs = unpack pktHdr bs' := by
  have hle : sizeofHeader ≤ n := by omega
  have hhdr : Header.ofBytes bs = Header.ofBytes bs' := by
    rw [← Header.ofBytes_take hle, h, Header.ofBytes_take hle]
  have hdata : ∀ l : List Byte, (l.drop sizeofHeader).take (Header.ofBytes bs).length.toNat =
      ((l.take n).drop sizeofHeader).take (Header.ofBytes bs).length.toNat := by
    intro l
    rw [List.drop_take, List.take_take, Nat.min_eq_left (by omega)]
  rw [unpack, unpack, ← hhdr, hdata bs, hdata bs', h]

/-- What is packed is unpacked, whatever bytes follow. -/
theorem unpack_packed (pktHdr : PacketHeader) (mailHdr : MailHeader) (data rest : List Byte)
    (hl : data.length = mailHdr.length.toNat) :
    unpack pktHdr (mailHdr.toBytes ++ (data ++ rest)) = ⟨pktHdr, mailHdr, data⟩ := by
  have hdrop : (mailHdr.toBytes ++ (data ++ rest)).drop sizeofHeader = data ++ rest := rfl
  rw [unpack, hdrop, Header.ofBytes_toBytes, List.take_left' hl]

/-- A packet that `Send` puts on the wire carries the letter. -/
theorem SendCall.inWire_send {c : SendCall} {network : Network} {netAddr toName : BitVec 32}
    {wire : Wire} (h : c.send numBoxes network netAddr = .ok (some (toName, wire))) :
    wire.length = MaxWireSize ∧
      inWire wire = Letter.mail toName ⟨netAddr, c.mailHdr, c.data⟩ ∧
      Legal numBoxes toName (Letter.mail toName ⟨netAddr, c.mailHdr, c.data⟩) := by
  unfold SendCall.send at h
  split at h
  · cases h
  rename_i hsize
  split at h
  · cases h
  rename_i hbox
  have hsize : c.mailHdr.length.toNat ≤ MaxMailSize := Decidable.not_not.mp hsize
  have hsum : (c.mailHdr.length + BitVec.ofNat 32 sizeofHeader).toNat =
      sizeofHeader + c.mailHdr.length.toNat := by
    have hsize : c.mailHdr.length.toNat ≤ 40 := hsize
    rw [BitVec.toNat_add]
    simp only [sizeofHeader, BitVec.toNat_ofNat]
    omega
  have hlegal : Legal numBoxes toName (Letter.mail toName ⟨netAddr, c.mailHdr, c.data⟩) :=
    ⟨rfl, hsum, hsize, Decidable.not_not.mp hbox⟩
  -- the buffer of the post office, cut where the packet ends
  have hbuffer := overlay_overlay (bytesAt c.postBuffer MaxPacketSize) c.mailHdr.toBytes
    (bytesAt c.data c.mailHdr.length.toNat)
  rw [Header.length_toBytes] at hbuffer
  simp only [Network.send, hbuffer] at h
  split at h
  · split at h
    · cases h
    · simp only [Except.mapError, Except.ok.injEq, Option.some.injEq, Prod.mk.injEq] at h
      obtain ⟨rfl, rfl⟩ := h
      rw [hsum, ← List.append_assoc, List.take_left' (by simp)]
      have hwire := overlay_overlay (bytesAt c.wireBuffer MaxWireSize)
        (Header.toBytes ⟨c.pktHdr.to, netAddr, c.mailHdr.length + BitVec.ofNat 32 sizeofHeader⟩)
        (c.mailHdr.toBytes ++ bytesAt c.data c.mailHdr.length.toNat)
      rw [Header.length_toBytes] at hwire
      rw [hwire]
      refine ⟨?_, ?_, hlegal⟩
      · have hsize : c.mailHdr.length.toNat ≤ 40 := hsize
        simp [sizeofHeader, MaxWireSize]
        omega
      · rw [inWire, Header.ofBytes_toBytes, List.drop_left' (by simp), List.append_assoc]
        exact unpack_packed _ _ _ _ (by simp)
  · cases h

/-- As many bytes as the header counts are enough. -/
theorem unpack_overlay {pktHdr : PacketHeader} {buf bs : List Byte}
    (h : Legal numBoxes addr (unpack pktHdr bs)) (hl : bs.length = MaxPacketSize) :
    unpack pktHdr (overlay buf 0 (bs.take pktHdr.length.toNat)) = unpack pktHdr bs := by
  have hle : pktHdr.length.toNat ≤ bs.length := hl ▸ h.length_le
  refine (unpack_congr (n := pktHdr.length.toNat) ?_ h.counted.ge).symm
  rw [overlay_zero, List.take_left' (List.length_take_of_le hle)]

theorem length_overlay_take {buf bs : List Byte} {n : ℕ} (hb : buf.length = MaxPacketSize)
    (hn : n ≤ MaxPacketSize) : (overlay buf 0 (bs.take n)).length = MaxPacketSize := by
  rw [length_overlay, hb]
  rw [List.length_take]
  omega

/-- A poll finds nothing to do, or it buffers the first packet. -/
theorem Network.checkPktAvail_cases {n : Network} {sock : List Wire}
    (hid : n.ident = addr) (hin : n.inbox.length = MaxPacketSize)
    (hl : ∀ w ∈ sock, w.length = MaxWireSize) (hw : ∀ w ∈ sock, Legal numBoxes addr (inWire w)) :
    n.checkPktAvail sock = .ok none ∨ ∃ n' w rest, sock = w :: rest ∧
      n.checkPktAvail sock = .ok (some (n', rest)) ∧ n.buffered = [] ∧
      n'.buffered = [inWire w] ∧ n'.ident = addr ∧ n'.inbox.length = MaxPacketSize := by
  unfold checkPktAvail
  by_cases h0 : n.inHdr.length = 0
  · rw [if_neg (by simpa using h0)]
    cases sock with
    | nil => exact .inl rfl
    | cons w rest =>
      have hlength := hl w List.mem_cons_self
      have hlegal := hw w List.mem_cons_self
      have haddr : (Header.ofBytes w).to = n.ident := hlegal.address.trans hid.symm
      have hle : (Header.ofBytes w).length.toNat ≤ MaxPacketSize := hlegal.length_le
      have hbs : (w.drop sizeofHeader).length = MaxPacketSize := by
        rw [List.length_drop, hlength, MaxPacketSize]
      right
      refine ⟨{ n with
        inHdr := .ofBytes w
        inbox := overlay n.inbox 0
          ((w.drop sizeofHeader).take (Header.ofBytes w).length.toNat) }, w, rest, rfl, ?_,
        if_pos h0, ?_, hid, length_overlay_take hin hle⟩
      · simp only [hlength, ne_eq, not_true_eq_false, if_false, haddr, hle, and_self, if_true]
      · have hne : (Header.ofBytes w).length ≠ 0 := hlegal.length_ne_zero
        simp only [Network.buffered, if_neg hne, unpack_overlay hlegal hbs]
        rfl
  · exact .inl (if_pos h0)

/-- The worker takes what is buffered. -/
theorem Network.receive_buffered {n : Network} {m : Mail} (buffer : List Byte)
    (hm : n.buffered = [m]) (hlegal : Legal numBoxes addr m)
    (hin : n.inbox.length = MaxPacketSize) (hb : buffer.length = MaxPacketSize) :
    (n.receive buffer).1 = n.inHdr ∧
      (n.receive buffer).2.1.take n.inHdr.length.toNat = n.inbox.take n.inHdr.length.toNat ∧
      unpack (n.receive buffer).1 (n.receive buffer).2.1 = m ∧
      (n.receive buffer).2.1.length = MaxPacketSize := by
  unfold Network.buffered at hm
  split at hm
  · cases hm
  · rename_i h0
    obtain rfl : unpack n.inHdr n.inbox = m := by simpa using hm
    have hle : n.inHdr.length.toNat ≤ n.inbox.length := hin ▸ hlegal.length_le
    simp only [Network.receive, ne_eq, h0, not_false_eq_true, if_true, true_and]
    refine ⟨?_, unpack_overlay hlegal hin, length_overlay_take hb hlegal.length_le⟩
    rw [overlay_zero, List.take_left' (List.length_take_of_le hle)]

namespace PostOffice

/-! ## The crew -/

abbrev Atomic := State PostSem Pc PostOffice

/-- Whose code a thread is in. -/
inductive Role
  | opening
  | worker
  | user
  | aborted
  deriving DecidableEq

def role : Pc → Role
  | .opening => .opening
  | .waiting _ | .receiving _ | .delivering _ _ => .worker
  | .aborted => .aborted
  | _ => .user

/-- The postal worker is the first thread that is forked, and the only one of its kind. -/
def Crew (a : Atomic) : Prop :=
  (a.nextTid = 1 ∧ a.pc 0 = .opening) ∨
    (1 < a.nextTid ∧ ∀ t < a.nextTid, role (a.pc t) = (if t = 1 then .worker else .user) ∨
      role (a.pc t) = .aborted)

variable {tr es : List (Event PostSem Ev)} {a b : Atomic} {t : Tid} {fresh : ℕ → Byte}
  {d : PostOffice} {v : Int} {k : Pc}

theorem Crew.eq_one (h : Crew a) (ht : t < a.nextTid) (hr : role (a.pc t) = .worker) : t = 1 := by
  rcases h with ⟨hn, h0⟩ | ⟨-, hall⟩
  · obtain rfl : t = 0 := Nat.lt_one_iff.mp (hn ▸ ht)
    rw [h0] at hr
    cases hr
  · rcases hall t ht with h | h
    · by_contra hne
      rw [if_neg hne, hr] at h
      cases h
    · rw [hr] at h
      cases h

theorem Crew.ne_one (h : Crew a) (ht : t < a.nextTid) (hr : role (a.pc t) = .user) : t ≠ 1 := by
  rintro rfl
  rcases h with ⟨hn, -⟩ | ⟨-, hall⟩
  · rw [hn] at ht
    exact Nat.lt_irrefl 1 ht
  · rcases hall 1 ht with h | h
    · rw [if_pos rfl, hr] at h
      cases h
    · rw [hr] at h
      cases h

/-- A thread goes on in its own part of the code, or aborts. -/
theorem Crew.move {k : Pc} (h : Crew a) (ht : t < a.nextTid) (hne : a.pc t ≠ .opening)
    (hk : role k = role (a.pc t) ∨ role k = .aborted) (hn : b.nextTid = a.nextTid)
    (hpc : b.pc = Function.update a.pc t k) : Crew b := by
  rcases h with ⟨hn', h0⟩ | ⟨hn', hall⟩
  · obtain rfl : t = 0 := Nat.lt_one_iff.mp (hn' ▸ ht)
    exact absurd h0 hne
  · refine .inr ⟨hn ▸ hn', fun u hu => ?_⟩
    rw [hn] at hu
    rw [hpc]
    by_cases hut : u = t
    · subst hut
      rw [Function.update_self]
      rcases hk with hk | hk
      · rw [hk]
        exact hall u hu
      · exact .inr hk
    · rw [Function.update_of_ne hut]
      exact hall u hu

theorem role_postalPut (numBoxes : Int) (pktHdr : PacketHeader) (buffer : List Byte)
    (d : PostOffice) : role (d.postalPut numBoxes pktHdr buffer).1 = .worker ∨
      role (d.postalPut numBoxes pktHdr buffer).1 = .aborted := by
  simp only [postalPut]
  split
  · exact .inr rfl
  split
  · exact .inr rfl
  split
  · exact .inl rfl
  · exact .inr rfl

theorem role_user {c : Choice} {r : Pc × PostOffice × List Ev}
    (h : user numBoxes addr c d = some r) : role r.1 = .user ∨ role r.1 = .aborted := by
  cases c with
  | send c =>
    cases h
    simp only [send]
    split
    · exact .inl rfl
    · exact .inr rfl
  | receive box =>
    cases h
    simp only [receive]
    split
    · exact .inr rfl
    split
    · exact .inr rfl
    split
    · exact .inl rfl
    · exact .inr rfl
  | tick | yield | fork | exit =>
    cases h
    exact .inl rfl

theorem crew_step (hs : DeviceStep (program numBoxes addr fresh) (handlers numBoxes) a es b)
    (h : Crew a) : Crew b := by
  cases hs with
  | signal _ | quiet _ => exact h
  | thread hs =>
    cases hs with
    | @P t s k ht hc hv =>
      cases hpc : a.pc t <;> simp only [program, code, hpc] at hc <;> cases hc
      all_goals exact h.move ht (by simp [hpc]) (.inl (by simp [hpc, role])) rfl rfl
    | @V t s k ht hc =>
      cases hpc : a.pc t <;> simp only [program, code, hpc] at hc <;> cases hc
    | handler hd => cases hd
    | @yield t k ht hc =>
      cases hpc : a.pc t <;> simp only [program, code, hpc, reduceCtorEq, or_self] at hc
      all_goals
        obtain rfl : Pc.user = k := by simpa using hc
        exact h.move ht (by simp [hpc]) (.inl (by simp [hpc, role])) rfl rfl
    | @fork t child k setup ht hc =>
      cases hpc : a.pc t <;> simp only [program, code, hpc] at hc <;> cases hc
      · -- the constructor forks the worker
        rcases h with ⟨hn, h0⟩ | ⟨hn, hall⟩
        · obtain rfl : t = 0 := Nat.lt_one_iff.mp (hn ▸ ht)
          refine .inr ⟨by simp [hn], fun u hu => ?_⟩
          have hu : u < a.nextTid + 1 := hu
          rw [hn] at hu
          rcases Nat.le_one_iff_eq_zero_or_eq_one.mp (Nat.lt_succ_iff.mp hu) with rfl | rfl
          · simp [role]
          · simp [hn, role]
        · rcases hall t ht with h | h <;> rw [hpc] at h
          · split at h <;> cases h
          · cases h
      · rcases h with ⟨hn, h0⟩ | ⟨hn, hall⟩
        · obtain rfl : t = 0 := Nat.lt_one_iff.mp (hn ▸ ht)
          rw [hpc] at h0
          cases h0
        · refine .inr ⟨Nat.lt_succ_of_lt hn, fun u hu => ?_⟩
          have hu : u < a.nextTid + 1 := hu
          have hne := Crew.ne_one (.inr ⟨hn, hall⟩) ht (by simp [hpc, role])
          by_cases hut : u = t
          · subst hut
            simp [hne, role]
          · by_cases hun : u = a.nextTid
            · subst hun
              simp [hut, role, hn.ne']
            · have hlt := lt_of_le_of_ne (Nat.lt_succ_iff.mp hu) hun
              simpa [hut, hun] using hall u hlt
    | @act t f c k d' es ht hc hf =>
      cases hpc : a.pc t <;> simp only [program, code, hpc] at hc <;> cases hc
      · cases hf
        exact h.move ht (by simp [hpc]) (.inl (by simp [hpc, role])) rfl rfl
      · rename_i pktHdr bs
        have hk := role_postalPut numBoxes pktHdr bs a.data
        rw [Option.some.inj hf] at hk
        exact h.move ht (by simp [hpc]) (by simpa [hpc, role] using hk) rfl rfl
      · exact h.move ht (by simp [hpc]) (by simpa [hpc, role] using role_user hf) rfl rfl
    | hook hd => exact h

theorem crew_run
    (h : (deviceAtomic (program numBoxes addr fresh) (handlers numBoxes)).Run tr a) : Crew a := by
  refine h.invariant (I := fun _ a => Crew a) ?_ ?_
  · rintro a rfl
    exact .inl ⟨rfl, rfl⟩
  · intro tr a es b _ hi hs
    exact crew_step hs hi

/-! ## The way of a letter -/

/-- Everything put into a box, in order. -/
def puts (tr : List (Event PostSem Ev)) : List Mail :=
  tr.filterMap fun | .act _ (.put _ mail) => some mail | _ => none

/-- Everything that has been received from the box. -/
def gots (box : Int) (tr : List (Event PostSem Ev)) : List Mail :=
  tr.filterMap fun | .act _ (.got box' mail) => if box' = box then some mail else none | _ => none

@[simp] theorem puts_append (tr es : List (Event PostSem Ev)) :
    puts (tr ++ es) = puts tr ++ puts es := List.filterMap_append

@[simp] theorem gots_append (box : Int) (tr es : List (Event PostSem Ev)) :
    gots box (tr ++ es) = gots box tr ++ gots box es := List.filterMap_append

/-- The mail the worker has taken and not yet put into its box. -/
def inHand : Pc → List Mail
  | .delivering pktHdr buffer => [unpack pktHdr buffer]
  | _ => []

/-- The worker has passed `P` and not yet taken the packet. -/
def taking : Pc → Int
  | .receiving _ => 1
  | _ => 0

/-- The buffer in the hands of the worker. -/
def buffer : Pc → List (List Byte)
  | .waiting buffer | .receiving buffer | .delivering _ buffer => [buffer]
  | _ => []

/-- The invariant, of the value of `messageAvailable`, the place of the worker, and the data. -/
structure Flow (numBoxes : Int) (addr : BitVec 32) (tr : List (Event PostSem Ev)) (v : Int)
    (k : Pc) (d : PostOffice) : Prop where
  ident : d.network.ident = addr
  inbox : d.network.inbox.length = MaxPacketSize
  buffers : ∀ bs ∈ buffer k, bs.length = MaxPacketSize
  wires : ∀ w ∈ d.sock, w.length = MaxWireSize
  failed : d.failed = false
  working : k ≠ .aborted
  asserts : ∀ e, .act 1 (.assertFailed e) ∉ tr
  legal : ∀ m ∈ d.arrived.map (Letter.mail addr), Legal numBoxes addr m
  flow : d.arrived.map (Letter.mail addr) =
    puts tr ++ inHand k ++ d.network.buffered ++ d.sock.map inWire
  nonneg : 0 ≤ v
  count : v + taking k = d.network.buffered.length
  boxes : ∀ box, gots box tr ++ d.boxes box =
    (puts tr).filter fun m => m.mailHdr.to.toInt = box

/-- Events of other threads that put nothing and get nothing. -/
def Aside (es : List (Event PostSem Ev)) : Prop :=
  puts es = [] ∧ (∀ box, gots box es = []) ∧ ∀ e, .act 1 (.assertFailed e) ∉ es

theorem aside_nil : Aside [] := ⟨rfl, fun _ => rfl, by simp⟩

theorem Flow.legal_wire {w : Wire} (h : Flow numBoxes addr tr v k d) (hw : w ∈ d.sock) :
    Legal numBoxes addr (inWire w) := by
  refine h.legal _ ?_
  rw [h.flow]
  exact List.mem_append_right _ (List.mem_map_of_mem hw)

theorem Flow.legal_buffered {m : Mail} (h : Flow numBoxes addr tr v k d)
    (hm : m ∈ d.network.buffered) : Legal numBoxes addr m := by
  refine h.legal _ ?_
  rw [h.flow]
  exact List.mem_append_left _ (List.mem_append_right _ hm)

theorem Flow.legal_inHand {m : Mail} (h : Flow numBoxes addr tr v k d) (hm : m ∈ inHand k) :
    Legal numBoxes addr m := by
  refine h.legal _ ?_
  rw [h.flow]
  exact List.mem_append_left _ (List.mem_append_left _ (List.mem_append_right _ hm))

theorem Flow.more (h : Flow numBoxes addr tr v k d) (hes : Aside es) :
    Flow numBoxes addr (tr ++ es) v k d where
  ident := h.ident
  inbox := h.inbox
  buffers := h.buffers
  wires := h.wires
  failed := h.failed
  working := h.working
  asserts e hm := by
    rcases List.mem_append.mp hm with hm | hm
    · exact h.asserts e hm
    · exact hes.2.2 e hm
  legal := h.legal
  flow := by
    rw [puts_append, hes.1, List.append_nil]
    exact h.flow
  nonneg := h.nonneg
  count := h.count
  boxes box := by
    rw [puts_append, hes.1, gots_append, hes.2.1, List.append_nil, List.append_nil]
    exact h.boxes box

/-- The worker is forked. -/
theorem Flow.hired {bs : List Byte} (h : Flow numBoxes addr tr v .opening d)
    (hbs : bs.length = MaxPacketSize) : Flow numBoxes addr tr v (.waiting bs) d :=
  { h with
    buffers := by simpa [buffer] using hbs
    working := by simp
    flow := h.flow
    count := h.count }

/-- A packet comes into the socket. -/
theorem Flow.deposit {c : SendCall} {network : Network} {netAddr : BitVec 32}
    {packet : Option (BitVec 32 × Wire)} (h : Flow numBoxes addr tr v k d)
    (hc : c.send numBoxes network netAddr = .ok packet) :
    Flow numBoxes addr tr v k (d.deposit ⟨netAddr, c.mailHdr, c.data⟩ packet) := by
  unfold PostOffice.deposit
  split
  · split
    · rename_i toName wire hto
      rw [h.ident] at hto
      subst hto
      obtain ⟨hl, hw, hlegal⟩ := SendCall.inWire_send hc
      refine { h with wires := ?_, legal := ?_, flow := ?_ }
      · intro w hm
        rcases List.mem_append.mp hm with hm | hm
        · exact h.wires w hm
        · obtain rfl := List.mem_singleton.mp hm
          exact hl
      · intro m hm
        rw [List.map_append] at hm
        rcases List.mem_append.mp hm with hm | hm
        · exact h.legal m hm
        · obtain rfl := List.mem_singleton.mp hm
          exact hlegal
      · simp only [List.map_append, h.flow, List.map_cons, List.map_nil, hw, List.append_assoc]
    · exact h
  · exact h

/-- A poll reads a packet only into an empty buffer. -/
theorem Flow.poll (h : Flow numBoxes addr tr v k d) :
    d.network.checkPktAvail d.sock = .ok none ∨ ∃ n sock,
      d.network.checkPktAvail d.sock = .ok (some (n, sock)) ∧ d.network.buffered = [] ∧
      Flow numBoxes addr tr (v + 1) k { d with network := n, sock := sock } := by
  rcases Network.checkPktAvail_cases h.ident h.inbox h.wires fun w hw => h.legal_wire hw with
    hnone | ⟨n, w, rest, hsock, hsome, hempty, hb, hid, hin⟩
  · exact .inl hnone
  · refine .inr ⟨n, rest, hsome, hempty, { h with
      ident := hid
      inbox := hin
      wires := fun w' hw' => h.wires w' (hsock ▸ List.mem_cons_of_mem w hw')
      flow := ?_
      nonneg := Int.le_add_one h.nonneg
      count := ?_ }⟩
    · have hflow := h.flow
      rw [hempty, hsock] at hflow
      rw [hflow, hb]
      simp
    · have hcount := h.count
      rw [hempty] at hcount
      rw [hb]
      simp only [List.length_nil, List.length_singleton] at hcount ⊢
      omega

theorem length_buffered_le (n : Network) : n.buffered.length ≤ 1 := by
  unfold Network.buffered
  split <;> simp

/-- The worker passes `messageAvailable->P()`. -/
theorem Flow.pass {bs : List Byte} (h : Flow numBoxes addr tr v (.waiting bs) d) (hv : v ≠ 0) :
    Flow numBoxes addr tr (decr v) (.receiving bs) d := by
  have hle := length_buffered_le d.network
  have hnonneg := h.nonneg
  have hcount := h.count
  simp only [taking, add_zero] at hcount
  obtain rfl : v = 1 := by omega
  exact { h with
    buffers := h.buffers
    working := by simp
    flow := h.flow
    nonneg := by simp [decr]
    count := by simpa [taking, decr] using hcount }

/-- A worker that has passed `P` finds a packet. -/
theorem Flow.exists_buffered {bs : List Byte} (h : Flow numBoxes addr tr v (.receiving bs) d) :
    ∃ m, d.network.buffered = [m] := by
  have hnonneg := h.nonneg
  have hcount := h.count
  have hle := length_buffered_le d.network
  simp only [taking] at hcount
  exact List.length_eq_one_iff.mp (by omega)

/-- The worker takes the packet that is buffered. -/
theorem Flow.taken {bs : List Byte} (t : Tid) (h : Flow numBoxes addr tr v (.receiving bs) d) :
    Flow numBoxes addr (tr ++ (d.postalReceive bs).2.2.map (.act t)) v
      (d.postalReceive bs).1 (d.postalReceive bs).2.1 := by
  obtain ⟨m, hm⟩ := h.exists_buffered
  have hlegal := h.legal_buffered (hm ▸ List.mem_singleton_self m)
  have hbs : bs.length = MaxPacketSize := h.buffers bs (List.mem_singleton_self bs)
  obtain ⟨-, -, hunpack, hlength⟩ := Network.receive_buffered bs hm hlegal h.inbox hbs
  have hempty : (d.network.receive bs).2.2.buffered = [] := if_pos rfl
  refine { h with buffers := ?_, working := ?_, asserts := ?_, flow := ?_, count := ?_, boxes := ?_ }
  · intro bs' hb
    obtain rfl := List.mem_singleton.mp hb
    exact hlength
  · simp [postalReceive]
  · simpa [postalReceive] using h.asserts
  · have hflow := h.flow
    rw [hm] at hflow
    simp only [postalReceive, puts_append, inHand, hempty, hunpack]
    simpa [inHand, puts] using hflow
  · have hcount := h.count
    simp only [hm, taking, List.length_singleton] at hcount
    simp only [postalReceive, taking, hempty, List.length_nil]
    omega
  · intro box
    simpa [postalReceive, gots, puts] using h.boxes box

/-- The worker puts the mail into its box. -/
theorem Flow.put {pktHdr : PacketHeader} {bs : List Byte} (t : Tid)
    (h : Flow numBoxes addr tr v (.delivering pktHdr bs) d) :
    Flow numBoxes addr (tr ++ (d.postalPut numBoxes pktHdr bs).2.2.map (.act t)) v
      (d.postalPut numBoxes pktHdr bs).1 (d.postalPut numBoxes pktHdr bs).2.1 := by
  have hlegal : Legal numBoxes addr (unpack pktHdr bs) := h.legal_inHand List.mem_cons_self
  have hsize : (Header.ofBytes bs).length.toNat ≤ MaxMailSize := hlegal.size
  have hbox : BoxInRange numBoxes (Header.ofBytes bs).to.toInt := hlegal.box
  have hput : d.postalPut numBoxes pktHdr bs =
      (.waiting bs,
        { d with
          boxes := Function.update d.boxes (Header.ofBytes bs).to.toInt
            (d.boxes (Header.ofBytes bs).to.toInt ++ [unpack pktHdr bs]) },
        [.put (Header.ofBytes bs).to.toInt (unpack pktHdr bs)]) := by
    simp only [postalPut, Mail.new, if_neg (not_not.mpr hbox), if_neg (not_not.mpr hsize),
      if_pos hsize]
    rfl
  rw [hput]
  refine { h with buffers := h.buffers, working := by simp, asserts := ?_, flow := ?_,
                  count := h.count, boxes := ?_ }
  · simpa using h.asserts
  · have hflow := h.flow
    simpa [inHand, puts] using hflow
  · intro box
    have hbox := h.boxes box
    rw [puts_append, List.filter_append, ← hbox, gots_append]
    by_cases he : (Header.ofBytes bs).to.toInt = box
    · subst he
      simp [gots, puts, unpack]
    · have hne : box ≠ (Header.ofBytes bs).to.toInt := fun h => he h.symm
      simp [gots, puts, unpack, he, hne]

/-- A thread calls `Receive`. -/
theorem Flow.got {box : Int} (ht : t ≠ 1) (h : Flow numBoxes addr tr v k d) :
    Flow numBoxes addr (tr ++ (d.receive numBoxes box).2.2.map (.act t)) v k
      (d.receive numBoxes box).2.1 := by
  have haside : ∀ e, Aside ([.assertFailed e].map (.act t)) := by
    intro e
    refine ⟨rfl, fun _ => rfl, ?_⟩
    simp [ht.symm]
  unfold PostOffice.receive
  split
  · exact h.more (haside _)
  split
  · exact h.more (haside _)
  · rename_i mail messages hb
    have hgot : Flow numBoxes addr (tr ++ [.act t (.got box mail)]) v k
        { d with boxes := Function.update d.boxes box messages } := by
      refine { h with asserts := ?_, flow := ?_, boxes := ?_ }
      · simpa using h.asserts
      · simpa [puts] using h.flow
      · intro box'
        have hbox := h.boxes box'
        rw [gots_append, puts_append]
        by_cases he : box' = box
        · subst he
          rw [hb] at hbox
          simpa [gots, puts] using hbox
        · simpa [gots, puts, he, Ne.symm he] using hbox
    dsimp only
    split
    · exact hgot
    · have := hgot.more (haside .mailSize)
      rwa [List.append_assoc] at this

/-- A thread sends, receives or does something else. -/
theorem Flow.user {c : Choice} {r : Pc × PostOffice × List Ev} (ht : t ≠ 1)
    (h : Flow numBoxes addr tr v k d) (hr : user numBoxes addr c d = some r) :
    Flow numBoxes addr (tr ++ r.2.2.map (.act t)) v k r.2.1 := by
  cases c with
  | send c =>
    cases hr
    simp only [PostOffice.send]
    split
    · rename_i packet hc
      have hd := (h.deposit hc).more aside_nil
      exact { hd with flow := hd.flow }
    · exact h.more ⟨rfl, fun _ => rfl, by simp [ht.symm]⟩
  | receive box =>
    cases hr
    exact h.got ht
  | tick | yield | fork | exit =>
    cases hr
    exact h.more aside_nil

theorem Flow.value_le (h : Flow numBoxes addr tr v k d) : v ≤ 1 := by
  have hcount := h.count
  have hle := length_buffered_le d.network
  have htaking : 0 ≤ taking k := by
    unfold taking
    split <;> simp
  omega

theorem Flow.incr_eq (h : Flow numBoxes addr tr v k d) : incr v = v + 1 := by
  have hnonneg := h.nonneg
  have hle := h.value_le
  exact Concurrent.incr_eq (by omega) (by omega)

/-- What comes from outside. -/
theorem Flow.handler {i : Interrupt} {d' : PostOffice} {s : Option PostSem}
    (h : Flow numBoxes addr tr v k d) (hf : handlers numBoxes i d = some (d', s)) :
    Flow numBoxes addr tr (if s = some .messageAvailable then incr v else v) k d' := by
  cases i with
  | readPoll =>
    rcases h.poll with hnone | ⟨n, sock, hsome, -, hflow⟩
    · simp only [handlers, hnone, Option.some.injEq, Prod.mk.injEq] at hf
      obtain ⟨rfl, rfl⟩ := hf
      exact h
    · simp only [handlers, hsome, Option.some.injEq, Prod.mk.injEq] at hf
      obtain ⟨rfl, rfl⟩ := hf
      rw [if_pos rfl, h.incr_eq]
      exact hflow
  | sendDone =>
    simp only [handlers] at hf
    split at hf
    · cases hf
    · cases hf
      exact { h with flow := h.flow }
  | remote netAddr c =>
    simp only [handlers] at hf
    split at hf
    · rename_i packet hc
      cases hf
      exact h.deposit hc
    · cases hf

theorem flow_step (hs : DeviceStep (program numBoxes addr fresh) (handlers numBoxes) a es b)
    (hcrew : Crew a) (hfresh : Fresh (program numBoxes addr fresh) a)
    (h : Flow numBoxes addr tr (a.value .messageAvailable) (a.pc 1) a.data) :
    Flow numBoxes addr (tr ++ es) (b.value .messageAvailable) (b.pc 1) b.data := by
  cases hs with
  | @signal i d s hf =>
    have haside : Aside [.V none s] := ⟨rfl, fun _ => rfl, by simp⟩
    have hd := (h.handler hf).more haside
    cases s with
    | messageAvailable => simpa using hd
    | messageSent => simpa using hd
  | quiet hf => exact (h.handler hf).more aside_nil
  | thread hs =>
    cases hs with
    | @P t s k ht hc hv =>
      have haside : Aside [.P t s] := ⟨rfl, fun _ => rfl, by simp⟩
      cases hpc : a.pc t <;> simp only [program, code, hpc] at hc <;> cases hc
      · obtain rfl := hcrew.eq_one ht (by simp [hpc, role])
        rw [hpc] at h
        simpa using (h.pass hv).more haside
      · have hne := hcrew.ne_one ht (by simp [hpc, role])
        simpa [hne.symm] using h.more haside
    | @V t s k ht hc =>
      cases hpc : a.pc t <;> simp only [program, code, hpc] at hc <;> cases hc
    | handler hd => cases hd
    | @yield t k ht hc =>
      have hne : t ≠ 1 := by
        refine hcrew.ne_one ht ?_
        cases hpc : a.pc t <;> simp [program, code, hpc] at hc <;> rfl
      simpa [hne.symm] using h.more aside_nil
    | @fork t child k setup ht hc =>
      cases hpc : a.pc t <;> simp only [program, code, hpc] at hc <;> cases hc
      · rcases hcrew with ⟨hn, h0⟩ | ⟨hn, hall⟩
        · obtain rfl : t = 0 := Nat.lt_one_iff.mp (hn ▸ ht)
          have h1 : a.pc 1 = .opening := hfresh 1 hn.le
          rw [h1] at h
          simpa [hn] using (h.hired (length_bytesAt fresh _)).more aside_nil
        · rcases hall t ht with h | h <;> rw [hpc] at h
          · split at h <;> cases h
          · cases h
      · have hne := hcrew.ne_one ht (by simp [hpc, role])
        have hnext : 1 ≠ a.nextTid := by
          rcases hcrew with ⟨hn, h0⟩ | ⟨hn, -⟩
          · obtain rfl : t = 0 := Nat.lt_one_iff.mp (hn ▸ ht)
            rw [hpc] at h0
            cases h0
          · exact hn.ne
        simpa [hne.symm, hnext] using h.more aside_nil
    | @act t f c k d' es ht hc hf =>
      cases hpc : a.pc t <;> simp only [program, code, hpc] at hc <;> cases hc
      · rename_i bs
        obtain rfl := hcrew.eq_one ht (by simp [hpc, role])
        rw [hpc] at h
        have htaken := h.taken 1
        rw [Option.some.inj hf] at htaken
        simpa using htaken
      · rename_i pktHdr bs
        obtain rfl := hcrew.eq_one ht (by simp [hpc, role])
        rw [hpc] at h
        have hput := h.put 1
        rw [Option.some.inj hf] at hput
        simpa using hput
      · have hne := hcrew.ne_one ht (by simp [hpc, role])
        simpa [hne.symm] using h.user hne hf
    | hook hd => cases hd <;> exact h.more aside_nil

theorem flow_run
    (h : (deviceAtomic (program numBoxes addr fresh) (handlers numBoxes)).Run tr a) :
    Flow numBoxes addr tr (a.value .messageAvailable) (a.pc 1) a.data := by
  refine h.invariant (I := fun tr a =>
    Flow numBoxes addr tr (a.value .messageAvailable) (a.pc 1) a.data) ?_ ?_
  · rintro a rfl
    refine ⟨rfl, by simp [program, Program.initial, Network.new], ?_, ?_, rfl, ?_, ?_, ?_, rfl,
      le_rfl, rfl, ?_⟩
    all_goals simp [program, Program.initial, buffer, puts, gots]
  · intro tr a es b hr hi hs
    exact flow_step hs (crew_run hr) (fresh_deviceRun hr) hi

/-! ## Delivery -/

/-- The packet that is buffered stays as it is. -/
def Kept (d d' : PostOffice) : Prop :=
  d'.network.inHdr = d.network.inHdr ∧ d'.network.inbox = d.network.inbox

theorem kept_deposit (d : PostOffice) (l : Letter) (packet : Option (BitVec 32 × Wire)) :
    Kept d (d.deposit l packet) := by
  unfold deposit
  split
  · split <;> exact ⟨rfl, rfl⟩
  · exact ⟨rfl, rfl⟩

theorem kept_handlers {i : Interrupt} {d' : PostOffice} {s : Option PostSem}
    (hf : handlers numBoxes i d = some (d', s)) (h : d.network.inHdr.length ≠ 0) : Kept d d' := by
  cases i with
  | readPoll =>
    simp only [handlers, Network.checkPktAvail, if_pos h] at hf
    cases hf
    exact ⟨rfl, rfl⟩
  | sendDone =>
    simp only [handlers] at hf
    split at hf
    · cases hf
    · cases hf
      exact ⟨rfl, rfl⟩
  | remote netAddr c =>
    simp only [handlers] at hf
    split at hf
    · cases hf
      exact kept_deposit ..
    · cases hf

theorem kept_user {c : Choice} {r : Pc × PostOffice × List Ev}
    (h : user numBoxes addr c d = some r) : Kept d r.2.1 := by
  cases c with
  | send c =>
    cases h
    simp only [send]
    split
    · exact kept_deposit ..
    · exact ⟨rfl, rfl⟩
  | receive box =>
    cases h
    simp only [receive]
    split
    · exact ⟨rfl, rfl⟩
    split
    · exact ⟨rfl, rfl⟩
    split <;> exact ⟨rfl, rfl⟩
  | tick | yield | fork | exit =>
    cases h
    exact ⟨rfl, rfl⟩

theorem kept_postalPut (numBoxes : Int) (pktHdr : PacketHeader) (bs : List Byte)
    (d : PostOffice) : Kept d (d.postalPut numBoxes pktHdr bs).2.1 := by
  simp only [postalPut]
  split
  · exact ⟨rfl, rfl⟩
  split
  · exact ⟨rfl, rfl⟩
  split <;> exact ⟨rfl, rfl⟩

/-- The receiving machine `addr` after the events `tr`. -/
structure Faithful (numBoxes : Int) (addr : BitVec 32) (fresh : ℕ → Byte)
    (tr : List (KEvent PostSem Ev)) (σ : Kernel PostSem Pc PostOffice) : Prop where
  /-- The packets read so far are those put into boxes, in order, then one in the hands of the
  worker, then one in the buffer. -/
  order : puts (synced tr) ++ inHand (σ.pc 1) ++ σ.data.network.buffered =
    σ.data.readLetters.map (Letter.mail addr)
  /-- A worker that sleeps has put them all. -/
  asleep : 1 ∈ (σ.sem .messageAvailable).queue →
    puts (synced tr) = σ.data.readLetters.map (Letter.mail addr)
  /-- Each box holds what was put and is addressed to it, less what has been received. -/
  boxes : ∀ box, gots box (synced tr) ++ σ.data.boxes box =
    (puts (synced tr)).filter fun m => m.mailHdr.to.toInt = box
  /-- No assertion fails in a handler or in the worker. -/
  asserts : σ.data.failed = false ∧ ∀ e, .sync (.act 1 (.assertFailed e)) ∉ tr
  /-- Only the worker takes a packet out of the buffer, and it takes the whole packet. -/
  kept : ∀ es τ, (deviceKernel (program numBoxes addr fresh) (handlers numBoxes)).step σ es τ →
    σ.data.network.inHdr.length ≠ 0 → Kept σ.data τ.data ∨
      es = [.sync (.act 1 (.received σ.data.network.inHdr
        (σ.data.network.inbox.take σ.data.network.inHdr.length.toNat)))]

theorem Flow.readLetters (h : Flow numBoxes addr tr v k d) :
    d.readLetters.map (Letter.mail addr) = puts tr ++ inHand k ++ d.network.buffered := by
  have hlen := congrArg List.length h.flow
  rw [List.length_append, List.length_map, List.length_map] at hlen
  rw [PostOffice.readLetters, List.map_take, h.flow, hlen, Nat.add_sub_cancel,
    List.take_left]

variable {ktr : List (KEvent PostSem Ev)} {σ : Kernel PostSem Pc PostOffice}

/-- Only the worker waits for `messageAvailable`. -/
theorem worker_of_P {k k' : Pc} (h : code numBoxes addr fresh k = .P .messageAvailable k') :
    ∃ bs, k = .waiting bs := by
  cases k <;> simp only [code] at h <;> cases h
  exact ⟨_, rfl⟩

/-- A worker that sleeps has nothing in its hands, and there is nothing to take. -/
theorem asleep_deviceRun
    (h : (deviceKernel (program numBoxes addr fresh) (handlers numBoxes)).Run ktr σ)
    (hq : 1 ∈ (σ.sem .messageAvailable).queue) :
    inHand (σ.pc 1) = [] ∧ σ.data.network.buffered = [] := by
  have hp := placement_deviceRun h
  have ha := atCall_deviceRun h
  have hcrew := crew_run (deviceAtomic_run h)
  have hflow := flow_run (deviceAtomic_run h)
  obtain ⟨k, hk⟩ := ha.code_of_queued hp hq
  obtain ⟨bs, hbs⟩ := worker_of_P hk
  have hi : SemaphoreInv (program numBoxes addr fresh) .messageAvailable ktr σ := by
    refine semaphoreInv_deviceRun (by simp [program]) (by simp [program]) ?_ h
    intro tr σ hr
    exact (flow_run (deviceAtomic_run hr)).value_le.trans_lt (by norm_num)
  have hv := hi.value_eq_zero hp ha (t := 1) ?_ hq
  · have hcount := hflow.count
    rw [show σ.atomically.value .messageAvailable = 0 from hv,
      show σ.atomically.pc 1 = .waiting bs from hbs] at hcount
    simp only [taking, add_zero] at hcount
    exact ⟨by rw [hbs]; rfl, List.length_eq_zero_iff.mp (by exact_mod_cast hcount.symm)⟩
  · intro u hu k' hk'
    obtain ⟨bs', hbs'⟩ := worker_of_P hk'
    exact hcrew.eq_one hu (by rw [show σ.atomically.pc u = .waiting bs' from hbs']; rfl)

/-- What one step does to a packet that is buffered. -/
theorem kept_deviceStep {es : List (KEvent PostSem Ev)} {τ : Kernel PostSem Pc PostOffice}
    (h : (deviceKernel (program numBoxes addr fresh) (handlers numBoxes)).Run ktr σ)
    (hs : (deviceKernel (program numBoxes addr fresh) (handlers numBoxes)).step σ es τ)
    (hne : σ.data.network.inHdr.length ≠ 0) : Kept σ.data τ.data ∨
      es = [.sync (.act 1 (.received σ.data.network.inHdr
        (σ.data.network.inbox.take σ.data.network.inHdr.length.toNat)))] := by
  have hcrew := crew_run (deviceAtomic_run h)
  have hflow := flow_run (deviceAtomic_run h)
  rcases step_or_fired hs with hs | hs
  · cases hs with
    | @act f c k d es hr hc hf =>
      have ht := (placement_deviceRun h).current
      cases hpc : σ.pc σ.currentThread <;> simp only [program, code, hpc] at hc <;> cases hc
      · rename_i bs
        right
        have h1 := hcrew.eq_one ht (by rw [show σ.atomically.pc _ = _ from hpc]; rfl)
        rw [show σ.atomically.pc 1 = .receiving bs from h1 ▸ hpc] at hflow
        obtain ⟨m, hm⟩ := hflow.exists_buffered
        obtain ⟨hhdr, hdata, -⟩ := Network.receive_buffered bs hm
          (hflow.legal_buffered (hm ▸ List.mem_singleton_self m)) hflow.inbox
          (hflow.buffers bs (List.mem_singleton_self bs))
        simp only [postalReceive, Option.some.injEq, Prod.mk.injEq] at hf
        obtain ⟨-, -, rfl⟩ := hf
        have hdata : ((σ.data.network.receive bs).2.1.take σ.data.network.inHdr.length.toNat) =
          σ.data.network.inbox.take σ.data.network.inHdr.length.toNat := hdata
        have hhdr : (σ.data.network.receive bs).1 = σ.data.network.inHdr := hhdr
        rw [hhdr, hdata, h1]
        rfl
      · rename_i pktHdr bs
        left
        have hk := kept_postalPut numBoxes pktHdr bs σ.data
        rwa [Option.some.inj hf] at hk
      · exact .inl (kept_user hf)
    | fork hr hc =>
      left
      cases hpc : σ.pc σ.currentThread <;> simp only [program, code, hpc] at hc <;> cases hc
      all_goals exact ⟨by simp [Kernel.fork], by simp [Kernel.fork]⟩
    | _ => exact .inl ⟨by simp [program], by simp [program]⟩
  · cases hs with
    | signal _ hf => exact .inl (kept_handlers hf hne)
    | quiet _ hf => exact .inl (kept_handlers hf hne)

/-- Mail is delivered faithfully and exactly once, whatever the threads of the machine do, whenever
it polls, and whatever other machines send. -/
theorem faithful_delivery
    (h : (deviceKernel (program numBoxes addr fresh) (handlers numBoxes)).Run ktr σ) :
    Faithful numBoxes addr fresh ktr σ := by
  have hflow := flow_run (deviceAtomic_run h)
  have hread := hflow.readLetters
  refine ⟨hread.symm, ?_, hflow.boxes, ⟨hflow.failed, ?_⟩, fun es τ hs => kept_deviceStep h hs⟩
  · intro hq
    obtain ⟨hhand, hbuf⟩ := asleep_deviceRun h hq
    refine Eq.trans ?_ hread.symm
    rw [show inHand (σ.atomically.pc 1) = [] from hhand,
      show σ.atomically.data.network.buffered = [] from hbuf, List.append_nil, List.append_nil]
  · intro e hm
    exact hflow.asserts e (mem_synced.mpr hm)

/-- Two bytes for box 1 of machine 1. -/
def greeting : SendCall where
  pktHdr := ⟨1, 0, 0⟩
  mailHdr := ⟨1, 0, 2⟩
  data i := if i = 0 then 72 else 105
  postBuffer _ := 7
  wireBuffer _ := 9
  lost := false

/-- Machine 0 sends them, machine 1 polls, and its worker puts them into the box and sleeps. -/
theorem faithful_delivery_greeting : ∃ ktr σ,
    (deviceKernel (program 2 1 fun _ => 5) (handlers 2)).Run ktr σ ∧
    Faithful 2 1 (fun _ => 5) ktr σ ∧ 1 ∈ (σ.sem .messageAvailable).queue ∧
    σ.data.boxes 1 = [⟨⟨1, 0, 14⟩, ⟨1, 0, 2⟩, [72, 105]⟩] := by
  obtain ⟨ktr, σ, hr, -, hp⟩ := System.exists_run_of_exec (Kernel.boot (program 2 1 fun _ => 5))
    (Kernel.deviceNext (program 2 1 fun _ => 5) (handlers 2))
    (turns Choice.tick 4 ++
      DeviceAct.device (Interrupt.remote 0 greeting) ::
      DeviceAct.device Interrupt.readPoll ::
      turns Choice.tick 1 ++ turns Choice.yield 1 ++ turns Choice.tick 11)
    (fun r => decide (1 ∈ (r.1.sem .messageAvailable).queue ∧
      r.1.data.boxes 1 = [⟨⟨1, 0, 14⟩, ⟨1, 0, 2⟩, [72, 105]⟩])) (by decide +kernel)
  obtain ⟨hqueue, hboxes⟩ := of_decide_eq_true hp
  exact ⟨ktr, σ, hr, faithful_delivery hr, hqueue, hboxes⟩

end PostOffice

end Nachos
