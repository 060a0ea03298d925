import Mathlib.Data.List.TakeWhile
import Emilib.ConfigPort
import Emilib.Messages

/-!
# Destinations with a port

`emi_msg_init` takes a destination as a text, an address that a colon and a port may
follow. `split_ipaddr` takes it apart in buffers of its own, and `emi_addr_init` converts
the parts. The caller hands the second of them the whole text again, and not the address
that the first one split off.

`inet_addr` is a parameter. It rejects every text with a colon, so a destination with a
port is never accepted, while one without is honoured. A string is the bytes before its
zero byte.
-/

namespace Emilib.Destinations

open ByteWords FlagBits Messages ConfigText ConfigPort

/-- `':'`. -/
def colon : Byte := 0x3a

/-- `INADDR_NONE`. -/
def inaddrNone : BitVec 32 := 0xffffffff

/-- The buffers of `split_ipaddr` and of `emi_msg_init`. -/
inductive Overflow where
  | sip
  | newip
deriving DecidableEq, Repr

/-- The members of `struct emi_addr` that are assigned. -/
structure EmiAddr where
  sinFamily : BitVec 16
  sinPort : BitVec 16
  sAddr : BitVec 32
  pid : BitVec 32
deriving DecidableEq, Repr

/-- What a process has of its host: `inet_addr`, the byte order, `emi_config->emi_port`, and
its pid. -/
structure Host where
  inetAddr : List Byte → BitVec 32
  order : ByteOrder
  emiPort : BitVec 32
  pid : BitVec 32

/-- A message of a sender, with its address, and memory with the data areas. -/
structure Outgoing where
  place : Address
  message : EmiMsg
  addr : EmiAddr
  memory : Address → Byte

/-- `htons`. -/
def htons (order : ByteOrder) (word : BitVec 16) : BitVec 16 :=
  match order with
  | .little => word <<< 8 ||| word >>> 8
  | .big => word

/-- `split_ipaddr`: its result, the address and the port. -/
def splitIpaddr (host : Host) (mixip : List Byte) :
    Except Overflow (Int × List Byte × BitVec 32) :=
  if mixip.length < 32 then
    let ip := mixip.takeWhile fun c => c ≠ colon
    if ip.length < 16 then
      match mixip.dropWhile fun c => c ≠ colon with
      | [] => .ok (-1, ip, host.emiPort)
      | _ :: port => .ok (0, ip, BitVec.ofInt 32 (atoi port))
    else .error .newip
  else .error .sip

/-- `emi_addr_init`. -/
def emiAddrInit (host : Host) (addr : EmiAddr) (ip : List Byte) (port : BitVec 32) :
    Int × EmiAddr :=
  let addr := { addr with sAddr := host.inetAddr ip }
  if addr.sAddr = inaddrNone then (-1, addr)
  else (0, { addr with
    sinPort := htons host.order (port.setWidth 16)
    sinFamily := 2
    pid := host.pid })

/-- The first branch of `emi_msg_init`: the address of the message. -/
def initAddr (host : Host) (msg : Outgoing) (destIp : Option (List Byte)) :
    Except Overflow (Int × Outgoing) :=
  match destIp with
  | none => .ok (0, msg)
  | some destIp => do
      let (_, _, port) ← splitIpaddr host destIp
      -- The split address is not used.
      let (ret, addr) := emiAddrInit host msg.addr destIp port
      return (ret, { msg with addr := addr })

/-- The members that `emi_msg_init` assigns, and the data it copies. -/
def initPayload (msg : Outgoing) (msgNum cmd flag dataSize : BitVec 32) (data : Option Address) :
    Outgoing :=
  let message := { msg.message with
    cmd := cmd
    msg := msgNum
    flag := raise msg.message.flag flag
    size := dataSize }
  let memory := match data with
    | none => msg.memory
    | some data => writeBytes msg.memory (getAddr msg.place message.dataOffset)
        (readBytes msg.memory data message.size.toNat)
  { msg with message := message, memory := memory }

/-- `emi_msg_init`. -/
def emiMsgInit (host : Host) (msg : Outgoing) (destIp : Option (List Byte))
    (msgNum cmd flag dataSize : BitVec 32) (data : Option Address) :
    Except Overflow (Int × Outgoing) := do
  let (ret, msg) ← initAddr host msg destIp
  if ret ≠ 0 then return (-1, msg)
  else return (0, initPayload msg msgNum cmd flag dataSize data)

/-- A destination: an address that `inet_addr` accepts, and the digits of a port, if there
is one. -/
structure Destination (inetAddr : List Byte → BitVec 32) where
  address : List Byte
  port : Option (List Byte)
  accepted : inetAddr address ≠ inaddrNone
  short : address.length ≤ 15
  decimal : ∀ digits ∈ port,
    digits ≠ [] ∧ digits.length ≤ 5 ∧ (∀ c ∈ digits, isdigit c) ∧ number digits ≤ 65535

/-- The text of a destination. -/
def Destination.text {inetAddr : List Byte → BitVec 32} (destination : Destination inetAddr) :
    List Byte :=
  match destination.port with
  | none => destination.address
  | some digits => destination.address ++ colon :: digits

/-- The port a destination means. -/
def Destination.portNumber {inetAddr : List Byte → BitVec 32}
    (destination : Destination inetAddr) (emiPort : BitVec 32) : BitVec 16 :=
  match destination.port with
  | none => emiPort.setWidth 16
  | some digits => BitVec.ofNat 16 (number digits)

/-- A destination is honoured: the message gets its address and its port. -/
def Honoured (host : Host) (destination : Destination host.inetAddr) (msg : Outgoing)
    (msgNum cmd flag dataSize : BitVec 32) (data : Option Address) : Prop :=
  ∃ after, emiMsgInit host msg (some destination.text) msgNum cmd flag dataSize data =
      .ok (0, after) ∧
    after.addr.sAddr = host.inetAddr destination.address ∧
    after.addr.sinPort = htons host.order (destination.portNumber host.emiPort)

/-- `inet_addr` takes plain addresses only. -/
def PlainOnly (inetAddr : List Byte → BitVec 32) : Prop :=
  ∀ text, colon ∈ text → inetAddr text = inaddrNone

section Splits

variable {host : Host}

/-- An accepted address has no colon. -/
theorem address_plain (plain : PlainOnly host.inetAddr) (destination : Destination host.inetAddr) :
    ∀ c ∈ destination.address, decide (c ≠ colon) = true := by
  intro c member
  apply decide_eq_true
  rintro rfl
  exact destination.accepted (plain destination.address member)

/-- `split_ipaddr` takes every destination apart. -/
theorem splitIpaddr_exact (plain : PlainOnly host.inetAddr)
    (destination : Destination host.inetAddr) :
    ∃ ret port, splitIpaddr host destination.text = .ok (ret, destination.address, port) ∧
      port.setWidth 16 = destination.portNumber host.emiPort := by
  have whole := address_plain plain destination
  have short := destination.short
  have decimal := destination.decimal
  rw [splitIpaddr, Destination.text, Destination.portNumber]
  cases given : destination.port with
  | none =>
    have ip : destination.address.takeWhile (fun c => decide (c ≠ colon)) =
        destination.address := List.takeWhile_eq_self_iff.mpr whole
    have rest : destination.address.dropWhile (fun c => decide (c ≠ colon)) = [] :=
      List.dropWhile_eq_nil_iff.mpr whole
    refine ⟨-1, host.emiPort, ?_, rfl⟩
    simp only [if_pos (show destination.address.length < 32 by omega), ip, rest,
      if_pos (show destination.address.length < 16 by omega)]
  | some digits =>
    obtain ⟨nonempty, few, digital, small⟩ := decimal digits given
    have ip : (destination.address ++ colon :: digits).takeWhile (fun c => decide (c ≠ colon)) =
        destination.address := by
      rw [List.takeWhile_append_of_pos whole, List.takeWhile_cons_of_neg (by decide),
        List.append_nil]
    have rest : (destination.address ++ colon :: digits).dropWhile (fun c => decide (c ≠ colon)) =
        colon :: digits := by
      rw [List.dropWhile_append_of_pos whole, List.dropWhile_cons_of_neg (by decide)]
    have length : (destination.address ++ colon :: digits).length < 32 := by
      rw [List.length_append, List.length_cons]
      omega
    have value := atoi_port nonempty digital (by omega) 0
    rw [List.replicate_zero, List.append_nil] at value
    refine ⟨0, BitVec.ofInt 32 (atoi digits), ?_, ?_⟩
    · simp only [if_pos length, ip, rest,
        if_pos (show destination.address.length < 16 by omega)]
    · rw [value, BitVec.ofInt_natCast]
      apply BitVec.eq_of_toNat_eq
      simp only [BitVec.toNat_setWidth, BitVec.toNat_ofNat]
      omega

/-- The text of a destination has a colon just when there is a port. -/
theorem colon_of_port {inetAddr : List Byte → BitVec 32} {destination : Destination inetAddr}
    (given : destination.port ≠ none) : colon ∈ destination.text := by
  rw [Destination.text]
  cases port : destination.port with
  | none => exact absurd port given
  | some digits => exact List.mem_append_right _ List.mem_cons_self

/-- What `emi_msg_init` does with a text that was split: it converts the whole of it. -/
theorem emiMsgInit_split {text ip : List Byte} {ret : Int} {port : BitVec 32}
    (split : splitIpaddr host text = .ok (ret, ip, port)) (msg : Outgoing)
    (msgNum cmd flag dataSize : BitVec 32) (data : Option Address) :
    emiMsgInit host msg (some text) msgNum cmd flag dataSize data =
      let converted := emiAddrInit host msg.addr text port
      let msg := { msg with addr := converted.2 }
      .ok (if converted.1 ≠ 0 then (-1, msg)
        else (0, initPayload msg msgNum cmd flag dataSize data)) := by
  rw [emiMsgInit, initAddr]
  simp only [split, bind, Except.bind, pure, Except.pure]
  split <;> rfl

end Splits

/-- A destination is honoured just when it has no port. -/
theorem honoured_iff (host : Host) (plain : PlainOnly host.inetAddr)
    (destination : Destination host.inetAddr) (msg : Outgoing)
    (msgNum cmd flag dataSize : BitVec 32) (data : Option Address) :
    Honoured host destination msg msgNum cmd flag dataSize data ↔ destination.port = none := by
  obtain ⟨ret, port, split, same⟩ := splitIpaddr_exact plain destination
  have initialized := emiMsgInit_split split msg msgNum cmd flag dataSize data
  constructor
  · rintro ⟨after, succeeded, _⟩
    by_contra given
    have rejected : emiAddrInit host msg.addr destination.text port =
        (-1, { msg.addr with sAddr := host.inetAddr destination.text }) :=
      if_pos (plain destination.text (colon_of_port given))
    rw [initialized, rejected] at succeeded
    cases succeeded
  · intro none
    have text : destination.text = destination.address := by
      rw [Destination.text, none]
    have accepted : emiAddrInit host msg.addr destination.text port =
        (0, ⟨2, htons host.order (port.setWidth 16), host.inetAddr destination.address,
          host.pid⟩) := by
      rw [text]
      exact if_neg destination.accepted
    rw [accepted] at initialized
    exact ⟨_, initialized, rfl, congrArg (htons host.order) same⟩

/-- `127.0.0.1`. -/
def loopback : List Byte := [0x31, 0x32, 0x37, 0x2e, 0x30, 0x2e, 0x30, 0x2e, 0x31]

/-- A host that knows one address. -/
def localHost : Host where
  inetAddr text := if text = loopback then 0x0100007f else inaddrNone
  order := .little
  emiPort := usrEmiPort
  pid := 7

/-- That host takes no text with a colon. -/
theorem localHost_plain : PlainOnly localHost.inetAddr := by
  intro text member
  apply if_neg
  rintro rfl
  exact absurd member (by decide)

/-- The destination `127.0.0.1`. -/
def plainLoopback : Destination localHost.inetAddr where
  address := loopback
  port := none
  accepted := by decide
  short := by decide
  decimal := by
    intro digits given
    cases given

/-- The destination `127.0.0.1:80`. -/
def loopbackPort : Destination localHost.inetAddr where
  address := loopback
  port := some [0x38, 0x30]
  accepted := by decide
  short := by decide
  decimal := by
    intro digits given
    obtain rfl := Option.some.inj given
    decide

/-- A message that was not initialized yet. -/
def unaddressed : Outgoing := ⟨0, ⟨0, 0, 0, 0, 0, 72, 0⟩, ⟨0, 0, 0, 0⟩, fun _ => 0⟩

/-- Without a port the loopback address is honoured. -/
theorem loopback_honoured : Honoured localHost plainLoopback unaddressed 1 0 0 0 none :=
  (honoured_iff localHost localHost_plain plainLoopback unaddressed 1 0 0 0 none).mpr rfl

/-- With port 80 it is not, on a host whose `inet_addr` takes plain addresses only. -/
theorem port_refused : ¬ ∀ host, PlainOnly host.inetAddr →
    ∀ destination : Destination host.inetAddr,
      Honoured host destination unaddressed 1 0 0 0 none := by
  intro claimed
  obtain ⟨after, succeeded, _⟩ := claimed localHost localHost_plain loopbackPort
  have refused : ∃ msg, emiMsgInit localHost unaddressed (some loopbackPort.text) 1 0 0 0 none =
      .ok (-1, msg) := ⟨_, rfl⟩
  obtain ⟨msg, refused⟩ := refused
  rw [refused] at succeeded
  cases succeeded

end Emilib.Destinations
