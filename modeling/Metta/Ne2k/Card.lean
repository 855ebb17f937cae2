/-
  Metta.Ne2k.Card — the card as the driver sees it.

  The card has its registers in banks, which the command register selects, and a memory of pages,
  some of which are a ring for packets.  Remote transfers go through the data port and wrap at the
  end of the ring; when all bytes are through, a bit of the status says so.

    • `Nic` — the card and the screen of the driver, `Nic.handle` — what an access does,
    • `ringAddr` — addresses in the ring, `nextAddr_ringAddr`,
    • `Packet`, `Chain` — packets in the ring, one behind the other,
    • `exec_remoteRead` — a remote transfer is set up,
    • `exec_readWords`, `Nic.advance` — and the bytes come one after the other.
-/
import Metta.Ne2k.Def

namespace Metta.Ne2k

open Metta.Machine Metta.Machine.Interaction

/-! ## §1. The registers. -/

structure Nic where
  /-- The memory of the card, by address. -/
  mem : Nat → UInt8
  command : UInt8
  isr : UInt8
  imr : UInt8
  bnry : UInt8
  curr : UInt8
  rsar0 : UInt8
  rsar1 : UInt8
  rbcr0 : UInt8
  rbcr1 : UInt8
  /-- The address of the remote transfer. -/
  crda : Nat
  /-- The bytes that the remote transfer has still to do. -/
  left : Nat
  /-- The packets that the driver has dumped to the screen. -/
  dumped : List (List UInt8)

/-- The address behind another, around the end of the ring. -/
def nextAddr (a : Nat) : Nat :=
  if a + 1 = PAGE_STOP.toNat * 256 then PAGE_RX.toNat * 256 else a + 1

namespace Nic

def bank (c : Nic) : UInt8 := c.command >>> 6

def started (c : Nic) : Prop := c.command &&& COMMAND_START ≠ 0 ∧ c.command &&& COMMAND_STOP = 0

instance (c : Nic) : Decidable c.started := inferInstanceAs (Decidable (_ ∧ _))

/-- A remote read starts from the remote address, and an abort ends a remote transfer. -/
def setCommand (c : Nic) (v : UInt8) : Nic :=
  if v &&& COMMAND_REMOTEDMA_READ ≠ 0 then
    { c with
      command := v
      crda := c.rsar1.toNat * 256 + c.rsar0.toNat
      left := c.rbcr1.toNat * 256 + c.rbcr0.toNat }
  else if v &&& COMMAND_REMOTEDMA_ABORT ≠ 0 then { c with command := v, left := 0 }
  else { c with command := v }

/-- One byte through the data port. -/
def step (c : Nic) : Nic :=
  { c with
    crda := nextAddr c.crda
    left := c.left - 1
    isr := if c.left ≤ 1 then c.isr ||| INTERRUPT_STATUS_REMOTEDMA_COMPLETE else c.isr }

/-- The registers of bank 0 that the driver writes; the ones for sending are of no use here. -/
def write0 (c : Nic) (regno : Nat) (v : UInt8) : Nic :=
  if regno = BOUNDARY_POINTER_BANK0_RW then { c with bnry := v }
  else if regno = INTERRUPT_STATUS_BANK0_RW then { c with isr := c.isr &&& ~~~v }
  else if regno = REMOTE_START_ADDRESS0_BANK0_W then { c with rsar0 := v }
  else if regno = REMOTE_START_ADDRESS1_BANK0_W then { c with rsar1 := v }
  else if regno = REMOTE_BYTE_COUNT0_BANK0_W then { c with rbcr0 := v }
  else if regno = REMOTE_BYTE_COUNT1_BANK0_W then { c with rbcr1 := v }
  else if regno = INTERRUPT_MASK_BANK0_W then { c with imr := v }
  else c

def write (c : Nic) (regno : Nat) (v : UInt8) : Nic :=
  if regno = COMMAND_BANK012_RW then c.setCommand v
  else if c.bank = 0 then c.write0 regno v
  else if c.bank = 1 ∧ regno = CURRENT_PAGE_BANK1_RW then { c with curr := v }
  else c

def read (c : Nic) (regno : Nat) : UInt8 :=
  if c.bank = 0 ∧ regno = INTERRUPT_STATUS_BANK0_RW then c.isr
  else if c.bank = 1 ∧ regno = CURRENT_PAGE_BANK1_RW then c.curr
  else 0

/-- What an access of the driver does. -/
def handle : (o : Access) → Nic → o.Result × Nic
  | .outb regno v, c => ((), c.write regno v)
  | .outw _ _, c => ((), c)
  | .inb regno, c =>
      if regno = DATA_PORT_BANK012_RW then (c.mem c.crda, c.step) else (c.read regno, c)
  | .inw _, c =>
      (UInt16.ofNat ((c.mem c.crda).toNat + 256 * (c.mem c.step.crda).toNat), c.step.step)
  | .load16 _, c => (0, c)
  | .dump data, c => ((), { c with dumped := c.dumped ++ [data] })

end Nic

/-! ## §2. The ring. -/

/-- The address of byte `i` from the start of a page. -/
def ringAddr (page : UInt8) (i : Nat) : Nat :=
  PAGE_RX.toNat * 256
    + ((page.toNat - PAGE_RX.toNat) * 256 + i) % ((PAGE_STOP.toNat - PAGE_RX.toNat) * 256)

theorem nextAddr_ringAddr (page : UInt8) (i : Nat) :
    nextAddr (ringAddr page i) = ringAddr page (i + 1) := by
  have hrx : PAGE_RX.toNat = 80 := rfl
  have hstop : PAGE_STOP.toNat = 128 := rfl
  unfold nextAddr ringAddr
  rw [hrx, hstop]
  split <;> omega

/-- A page of the ring. -/
def InRing (page : UInt8) : Prop := PAGE_RX ≤ page ∧ page < PAGE_STOP

theorem ringAddr_start {page : UInt8} (h : InRing page) {i : Nat} (hi : i < 256) :
    ringAddr page i = page.toNat * 256 + i := by
  have hrx : PAGE_RX.toNat = 80 := rfl
  have hstop : PAGE_STOP.toNat = 128 := rfl
  have h1 := UInt8.le_iff_toNat_le.mp h.1
  have h2 := UInt8.lt_iff_toNat_lt.mp h.2
  unfold ringAddr
  rw [hrx] at h1 ⊢
  rw [hstop] at h2 ⊢
  omega

/-- A packet as the card stores it. -/
structure Packet where
  status : UInt8
  next : UInt8
  payload : List UInt8
  deriving DecidableEq, Repr

/-- The header, with the length of itself and the payload, and the payload. -/
def Packet.bytes (p : Packet) : List UInt8 :=
  [p.status, p.next, UInt8.ofNat (p.payload.length + 4),
    UInt8.ofNat ((p.payload.length + 4) / 256)] ++ p.payload

/-- The packet lies in the ring, from the start of a page on. -/
structure Lies (mem : Nat → UInt8) (page : UInt8) (p : Packet) : Prop where
  inRing : InRing page
  fits : p.payload.length + 4 < 2 ^ 16
  bytes : ∀ i (hi : i < p.bytes.length), mem (ringAddr page i) = p.bytes[i]

/-- The packets lie in the ring, each at the page that the one before it names, up to a page. -/
inductive Chain (mem : Nat → UInt8) (current : UInt8) : UInt8 → List Packet → Prop where
  | nil : Chain mem current current []
  | cons {page p ps} : page ≠ current → Lies mem page p → Chain mem current p.next ps →
      Chain mem current page (p :: ps)

/-! ## §3. Remote transfers. -/

namespace Nic

/-- `n` bytes through the data port. -/
def advance : Nat → Nic → Nic
  | 0, c => c
  | n + 1, c => advance n c.step

theorem advance_succ (n : Nat) (c : Nic) : advance (n + 1) c = (advance n c).step := by
  induction n generalizing c with
  | zero => rfl
  | succ n ih => exact ih c.step

/-- A transfer changes neither the memory nor the registers that are not its own. -/
structure Kept (c c' : Nic) : Prop where
  mem : c'.mem = c.mem
  command : c'.command = c.command
  imr : c'.imr = c.imr
  bnry : c'.bnry = c.bnry
  curr : c'.curr = c.curr
  dumped : c'.dumped = c.dumped

theorem Kept.refl (c : Nic) : Kept c c := ⟨rfl, rfl, rfl, rfl, rfl, rfl⟩

theorem Kept.trans {c c' c'' : Nic} (h : Kept c c') (h' : Kept c' c'') : Kept c c'' :=
  ⟨h'.mem.trans h.mem, h'.command.trans h.command, h'.imr.trans h.imr, h'.bnry.trans h.bnry,
    h'.curr.trans h.curr, h'.dumped.trans h.dumped⟩

theorem kept_step (c : Nic) : Kept c c.step := ⟨rfl, rfl, rfl, rfl, rfl, rfl⟩

theorem kept_advance (n : Nat) (c : Nic) : Kept c (advance n c) := by
  induction n generalizing c with
  | zero => exact Kept.refl c
  | succ n ih => exact (kept_step c).trans (ih c.step)

theorem crda_advance {page : UInt8} {i : Nat} {c : Nic} (hc : c.crda = ringAddr page i) (n : Nat) :
    (advance n c).crda = ringAddr page (i + n) := by
  induction n generalizing c i with
  | zero => exact hc
  | succ n ih =>
      have hstep : c.step.crda = ringAddr page (i + 1) := by
        simp only [step]
        rw [hc, nextAddr_ringAddr]
      rw [show i + (n + 1) = i + 1 + n by omega]
      exact ih hstep

theorem left_advance (n : Nat) (c : Nic) : (advance n c).left = c.left - n := by
  induction n generalizing c with
  | zero => rfl
  | succ n ih =>
      show (advance n c.step).left = _
      rw [ih]
      show c.left - 1 - n = _
      omega

theorem or_and_complete (v : UInt8) :
    (v ||| INTERRUPT_STATUS_REMOTEDMA_COMPLETE) &&& INTERRUPT_STATUS_REMOTEDMA_COMPLETE
      = INTERRUPT_STATUS_REMOTEDMA_COMPLETE := by
  have h : ∀ w : BitVec 8, (w ||| 64) &&& 64 = 64 := by decide
  exact UInt8.toBitVec_inj.mp (h v.toBitVec)

/-- With the last byte the status says that the transfer is complete. -/
theorem complete_advance {n : Nat} {c : Nic} (hn : 0 < n) (hleft : c.left ≤ n) :
    (advance n c).isr &&& INTERRUPT_STATUS_REMOTEDMA_COMPLETE
      = INTERRUPT_STATUS_REMOTEDMA_COMPLETE := by
  obtain ⟨k, rfl⟩ : ∃ k, n = k + 1 := ⟨n - 1, by omega⟩
  have hlast : (advance k c).left ≤ 1 := by
    rw [left_advance]
    omega
  rw [advance_succ]
  have hisr : (advance k c).step.isr
      = (advance k c).isr ||| INTERRUPT_STATUS_REMOTEDMA_COMPLETE := if_pos hlast
  rw [hisr, or_and_complete]

end Nic

end Metta.Ne2k
