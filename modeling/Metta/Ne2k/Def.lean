/-
  Metta.Ne2k.Def — the driver of the NE2000 network card.

  The driver talks to the card through the ports of its registers, and moves the bytes of packets
  through one data port.  Its functions are programs that make such accesses, with the results as
  the card gives them; a loop that waits for the card has a number of turns.

    • `Access`, `Driver` — the accesses and the programs that make them,
    • `sendPacket` — the bytes of a packet go to the card,
    • `packetReceived` — the packets in the ring of the card come from it,
    • `handleIrq` — the interrupt routine.
-/
import Metta.Machine.Interaction

namespace Metta.Ne2k

open Metta.Machine Metta.Machine.Interaction

/-! ## §1. Registers. -/

def PAGE_TX : UInt8 := 0x40
def PAGE_RX : UInt8 := 0x50
def PAGE_STOP : UInt8 := 0x80

def COMMAND_BANK012_RW : Nat := 0x00
def BOUNDARY_POINTER_BANK0_RW : Nat := 0x03
def TRANSMIT_PAGE_START_ADDRESS_BANK0_W : Nat := 0x04
def TRANSMIT_BYTE_COUNT0_BANK0_W : Nat := 0x05
def TRANSMIT_BYTE_COUNT1_BANK0_W : Nat := 0x06
def INTERRUPT_STATUS_BANK0_RW : Nat := 0x07
def REMOTE_START_ADDRESS0_BANK0_W : Nat := 0x08
def REMOTE_START_ADDRESS1_BANK0_W : Nat := 0x09
def REMOTE_BYTE_COUNT0_BANK0_W : Nat := 0x0a
def REMOTE_BYTE_COUNT1_BANK0_W : Nat := 0x0b
def INTERRUPT_MASK_BANK0_W : Nat := 0x0f
def CURRENT_PAGE_BANK1_RW : Nat := 0x07
def DATA_PORT_BANK012_RW : Nat := 0x10

def COMMAND_STOP : UInt8 := 1
def COMMAND_START : UInt8 := 2
def COMMAND_TRANSMIT_PACKET : UInt8 := 4
def COMMAND_REMOTEDMA_READ : UInt8 := 8
def COMMAND_REMOTEDMA_WRITE : UInt8 := 16
def COMMAND_REMOTEDMA_ABORT : UInt8 := 32
def COMMAND_BANK0 : UInt8 := 0
def COMMAND_BANK1 : UInt8 := 64

def INTERRUPT_STATUS_PACKET_RECEIVED : UInt8 := 1
def INTERRUPT_STATUS_PACKET_TRANSMITTED : UInt8 := 2
def INTERRUPT_STATUS_RECEIVE_ERROR : UInt8 := 4
def INTERRUPT_STATUS_TRANSMIT_ERROR : UInt8 := 8
def INTERRUPT_STATUS_OVERWRITE_WARNING : UInt8 := 16
def INTERRUPT_STATUS_REMOTEDMA_COMPLETE : UInt8 := 64

def INTERRUPT_MASK_ENABLE_ALL : UInt8 := 0x3f
def INTERRUPT_MASK_ENABLE_ALL_EXCEPT_RECEIVE : UInt8 := 0x3a

/-- Two addresses, type and checksum. -/
def MIN_ETH_FRAME_LENGTH : UInt16 := 6 + 6 + 2 + 4

/-! ## §2. Accesses. -/

/-- What the driver does apart from computing: it accesses a register of the card, reads a word of
the packet that it is to send, or dumps a packet to the screen. -/
inductive Access where
  | outb (regno : Nat) (value : UInt8)
  | outw (regno : Nat) (value : UInt16)
  | inb (regno : Nat)
  | inw (regno : Nat)
  | load16 (a : Nat)
  | dump (data : List UInt8)
  deriving DecidableEq, Repr

@[reducible] def Access.Result : Access → Type
  | outb _ _ => Unit
  | outw _ _ => Unit
  | inb _ => UInt8
  | inw _ => UInt16
  | load16 _ => UInt16
  | dump _ => Unit

abbrev Driver (α : Type) := Interaction Access.Result α

def access (o : Access) : Driver o.Result := perform o

def regWrite (regno : Nat) (value : UInt8) : Driver Unit := access (.outb regno value)

def regWriteWord (regno : Nat) (value : UInt16) : Driver Unit := access (.outw regno value)

def regRead (regno : Nat) : Driver UInt8 := access (.inb regno)

def regReadWord (regno : Nat) : Driver UInt16 := access (.inw regno)

section Exec

variable {σ β : Type} (handle : (o : Access) → σ → o.Result × σ) (s : σ)

theorem exec_regWrite_bind (regno : Nat) (v : UInt8) (f : Unit → Driver β) :
    exec handle (regWrite regno v >>= f) s = exec handle (f ()) (handle (.outb regno v) s).2 := rfl

theorem exec_regRead_bind (regno : Nat) (f : UInt8 → Driver β) :
    exec handle (regRead regno >>= f) s
      = exec handle (f (handle (.inb regno) s).1) (handle (.inb regno) s).2 := rfl

theorem exec_regReadWord_bind (regno : Nat) (f : UInt16 → Driver β) :
    exec handle (regReadWord regno >>= f) s
      = exec handle (f (handle (.inw regno) s).1) (handle (.inw regno) s).2 := rfl

end Exec

/-- `while (!(reg_read(INTERRUPT_STATUS) & REMOTEDMA_COMPLETE));`, and the write that clears it. -/
def awaitRemoteDma : Nat → Driver Unit
  | 0 => .going
  | turns + 1 => do
      let status ← regRead INTERRUPT_STATUS_BANK0_RW
      if status &&& INTERRUPT_STATUS_REMOTEDMA_COMPLETE = 0 then awaitRemoteDma turns
      else regWrite INTERRUPT_STATUS_BANK0_RW INTERRUPT_STATUS_REMOTEDMA_COMPLETE

/-- The start and the length of a remote transfer. -/
def remoteArea (start0 start1 count0 count1 : UInt8) : Driver Unit := do
  regWrite REMOTE_START_ADDRESS0_BANK0_W start0
  regWrite REMOTE_START_ADDRESS1_BANK0_W start1
  regWrite REMOTE_BYTE_COUNT0_BANK0_W count0
  regWrite REMOTE_BYTE_COUNT1_BANK0_W count1

/-! ## §3. Sending. -/

/-- `for (i = 0; (i + 1) < size; i += 2)`, with the last `i` as the result. -/
def sendWords (buf size i : Nat) : Driver Nat :=
  if h : i + 1 < size then do
    let word : UInt16 ← access (.load16 (buf + 2 * (i / 2)))
    regWriteWord DATA_PORT_BANK012_RW word
    sendWords buf size (i + 2)
  else pure i
termination_by size - i

/-- The odd byte, as the low half of a word of the packet. -/
def sendOddByte (buf size i : Nat) : Driver Nat :=
  if size % 2 = 1 then do
    let word : UInt16 ← access (.load16 (buf + 2 * (i / 2)))
    regWrite DATA_PORT_BANK012_RW word.toUInt8
    return i + 1
  else pure i

/-- `for (; i < 64; i += 2)`. -/
def sendPadding (i : Nat) : Driver Unit :=
  if h : i < 64 then do
    regWriteWord DATA_PORT_BANK012_RW 0
    sendPadding (i + 2)
  else pure ()
termination_by 64 - i

/-- `(size > 64) ? (size & 0xff) : 64`. -/
def lowCount (size : UInt16) : UInt8 := if 64 < size then (size &&& 0xff).toUInt8 else 64

def sendPacket (turns buf : Nat) (size : UInt16) : Driver Unit := do
  remoteArea 0 PAGE_TX (lowCount size) (size >>> 8).toUInt8
  regWrite COMMAND_BANK012_RW (COMMAND_BANK0 ||| COMMAND_REMOTEDMA_WRITE ||| COMMAND_START)
  let i ← sendWords buf size.toNat 0
  let i ← sendOddByte buf size.toNat i
  sendPadding i
  awaitRemoteDma turns
  regWrite TRANSMIT_BYTE_COUNT0_BANK0_W (lowCount size)
  regWrite TRANSMIT_BYTE_COUNT1_BANK0_W (size >>> 8).toUInt8
  regWrite TRANSMIT_PAGE_START_ADDRESS_BANK0_W PAGE_TX
  regWrite COMMAND_BANK012_RW
    (COMMAND_BANK0 ||| COMMAND_REMOTEDMA_ABORT ||| COMMAND_TRANSMIT_PACKET ||| COMMAND_START)

/-! ## §4. Receiving. -/

/-- The status and the length of the packet at a page. -/
def readHeader (page : UInt8) : Driver (UInt16 × UInt16) := do
  remoteArea 0 page 4 0
  regWrite COMMAND_BANK012_RW (COMMAND_BANK0 ||| COMMAND_REMOTEDMA_READ ||| COMMAND_START)
  let status ← regReadWord DATA_PORT_BANK012_RW
  let length ← regReadWord DATA_PORT_BANK012_RW
  return (status, length)

/-- The words of `data`, as the bytes that they are in memory. -/
def readWords : Nat → Driver (List UInt8)
  | 0 => pure []
  | n + 1 => do
      let word ← regReadWord DATA_PORT_BANK012_RW
      let rest ← readWords n
      return word.toUInt8 :: (word >>> 8).toUInt8 :: rest

/-- The bytes of the packet at a page that follow its header. -/
def readData (page : UInt8) (length : UInt16) : Driver (List UInt8) := do
  remoteArea 4 page (length &&& 0xff).toUInt8 ((length >>> 8) &&& 0xff).toUInt8
  regWrite COMMAND_BANK012_RW (COMMAND_BANK0 ||| COMMAND_REMOTEDMA_READ ||| COMMAND_START)
  let data ← readWords (length.toNat / 2)
  if length &&& 1 = 0 then return data
  else
    let odd ← regRead DATA_PORT_BANK012_RW
    return data ++ [odd]

/-- One page back in the ring. -/
def behind (page : UInt8) : UInt8 := if page = PAGE_RX then PAGE_STOP - 1 else page - 1

/-- `while (next_packet != current)`, with the last `next_packet` as the result. -/
def receiveLoop (turns : Nat) (current : UInt8) : Nat → UInt8 → Driver UInt8
  | 0, _ => .going
  | fuel + 1, nextPacket =>
      if nextPacket ≠ current then do
        let (status, length) ← readHeader nextPacket
        if length = 0 then return nextPacket
        else
          -- the status and the length are taken off, modulo `2 ^ 16`
          let length := length - 4
          if MIN_ETH_FRAME_LENGTH ≤ length then do
            awaitRemoteDma turns
            let data ← readData nextPacket length
            awaitRemoteDma turns
            let nextPacket := (status >>> 8).toUInt8
            regWrite BOUNDARY_POINTER_BANK0_RW (behind nextPacket)
            let _ : Unit ← access (.dump data)
            receiveLoop turns current fuel nextPacket
          else
            -- `next_packet` is where it was
            receiveLoop turns current fuel nextPacket
      else return nextPacket

def packetReceived (turns fuel : Nat) (nextPacket : UInt8) : Driver UInt8 := do
  regWrite COMMAND_BANK012_RW (COMMAND_BANK1 ||| COMMAND_REMOTEDMA_ABORT ||| COMMAND_STOP)
  let current ← regRead CURRENT_PAGE_BANK1_RW
  regWrite COMMAND_BANK012_RW (COMMAND_BANK0 ||| COMMAND_REMOTEDMA_ABORT ||| COMMAND_STOP)
  receiveLoop turns current fuel nextPacket

/-! ## §5. Interrupts. -/

/-- `if (reason & bit)`, `handled_reasons |= bit`. -/
def handled (reason bit handledReasons : UInt8) : UInt8 :=
  if reason &&& bit ≠ 0 then handledReasons ||| bit else handledReasons

/-- All reasons that are handled; the functions for them but `packet_received` only print. -/
def handledReasons (reason : UInt8) : UInt8 :=
  handled reason INTERRUPT_STATUS_PACKET_TRANSMITTED <|
  handled reason INTERRUPT_STATUS_TRANSMIT_ERROR <|
  handled reason INTERRUPT_STATUS_PACKET_RECEIVED <|
  handled reason INTERRUPT_STATUS_RECEIVE_ERROR <|
  handled reason INTERRUPT_STATUS_OVERWRITE_WARNING 0

/-- The branch for received packets, in which no further interrupt for them is raised. -/
def handleReceived (turns fuel : Nat) (nextPacket : UInt8) : Driver UInt8 := do
  regWrite INTERRUPT_MASK_BANK0_W INTERRUPT_MASK_ENABLE_ALL_EXCEPT_RECEIVE
  let nextPacket ← packetReceived turns fuel nextPacket
  regWrite INTERRUPT_MASK_BANK0_W INTERRUPT_MASK_ENABLE_ALL
  return nextPacket

/-- `if (handled_reasons != 0)`, the write that clears them. -/
def clearReasons (handledReasons : UInt8) : Driver Unit :=
  if handledReasons ≠ 0 then regWrite INTERRUPT_STATUS_BANK0_RW handledReasons else pure ()

def handleIrq (turns fuel : Nat) (nextPacket : UInt8) : Driver UInt8 := do
  let reason ← regRead INTERRUPT_STATUS_BANK0_RW
  let nextPacket ←
    if reason &&& INTERRUPT_STATUS_PACKET_RECEIVED ≠ 0 then handleReceived turns fuel nextPacket
    else pure nextPacket
  clearReasons (handledReasons reason)
  return nextPacket

end Metta.Ne2k
