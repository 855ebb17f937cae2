/-
  Metta.Ne2k.Receive — packet_received drains the ring.

  The driver goes from packet to packet by the page that each header names, up to the current page
  of the card.  A packet that is shorter than the smallest frame is left where it is, and with it
  the page, so that the loop comes to the same packet again.

    • `exec_readHeader`, `exec_readData` — the bytes of a packet come from the ring,
    • `exec_receiveLoop_frame` — a turn of the loop for a whole frame,
    • `exec_receiveLoop_runt` — and for a shorter packet, `receiveLoop_stuck`,
    • `Drains`, `packetReceived_drains_iff` — when the ring is drained.
-/
import Metta.Ne2k.Card

namespace Metta.Ne2k

open Metta.Machine Metta.Machine.Interaction

variable {c : Nic} {page current : UInt8} {p : Packet}

/-! ## §1. Remote reads. -/

/-- The card, set up for a remote read. -/
def Nic.remote (c : Nic) (start0 start1 count0 count1 : UInt8) : Nic :=
  { c with
    command := COMMAND_BANK0 ||| COMMAND_REMOTEDMA_READ ||| COMMAND_START
    rsar0 := start0
    rsar1 := start1
    rbcr0 := count0
    rbcr1 := count1
    crda := start1.toNat * 256 + start0.toNat
    left := count1.toNat * 256 + count0.toNat }

theorem write_bank0 (c : Nic) (hbank : c.bank = 0) {regno : Nat} (hreg : regno ≠ COMMAND_BANK012_RW)
    (v : UInt8) :
    c.write regno v = c.write0 regno v := by
  unfold Nic.write
  rw [if_neg hreg, if_pos hbank]

theorem exec_remoteRead {β : Type} (hbank : c.bank = 0) (start0 start1 count0 count1 : UInt8)
    (f : Driver β) :
    exec Nic.handle (do
        remoteArea start0 start1 count0 count1
        regWrite COMMAND_BANK012_RW (COMMAND_BANK0 ||| COMMAND_REMOTEDMA_READ ||| COMMAND_START)
        f) c = exec Nic.handle f (c.remote start0 start1 count0 count1) := by
  have h0 : c.write REMOTE_START_ADDRESS0_BANK0_W start0 = { c with rsar0 := start0 } :=
    write_bank0 c hbank (by decide) start0
  have h1 : Nic.write { c with rsar0 := start0 } REMOTE_START_ADDRESS1_BANK0_W start1
      = { c with rsar0 := start0, rsar1 := start1 } :=
    write_bank0 { c with rsar0 := start0 } hbank
      (show REMOTE_START_ADDRESS1_BANK0_W ≠ _ by decide) start1
  have h2 : Nic.write { c with rsar0 := start0, rsar1 := start1 } REMOTE_BYTE_COUNT0_BANK0_W count0
      = { c with rsar0 := start0, rsar1 := start1, rbcr0 := count0 } :=
    write_bank0 { c with rsar0 := start0, rsar1 := start1 } hbank
      (show REMOTE_BYTE_COUNT0_BANK0_W ≠ _ by decide) count0
  have h3 : Nic.write { c with rsar0 := start0, rsar1 := start1, rbcr0 := count0 }
        REMOTE_BYTE_COUNT1_BANK0_W count1
      = { c with rsar0 := start0, rsar1 := start1, rbcr0 := count0, rbcr1 := count1 } :=
    write_bank0 { c with rsar0 := start0, rsar1 := start1, rbcr0 := count0 } hbank
      (show REMOTE_BYTE_COUNT1_BANK0_W ≠ _ by decide) count1
  show exec Nic.handle f ((((((c.write _ start0).write _ start1).write _ count0).write _ count1)).write
    COMMAND_BANK012_RW (COMMAND_BANK0 ||| COMMAND_REMOTEDMA_READ ||| COMMAND_START)) = _
  rw [h0, h1, h2, h3]
  rfl

theorem bank_remote (start0 start1 count0 count1 : UInt8) :
    (c.remote start0 start1 count0 count1).bank = 0 := by
  show (COMMAND_BANK0 ||| COMMAND_REMOTEDMA_READ ||| COMMAND_START) >>> 6 = 0
  decide

/-- The registers of bank 0 are selected, and what the driver has to show for is as before. -/
structure Quiet (c c' : Nic) : Prop where
  bank : c'.bank = 0
  mem : c'.mem = c.mem
  curr : c'.curr = c.curr
  bnry : c'.bnry = c.bnry
  dumped : c'.dumped = c.dumped

theorem quiet_advance (n : Nat) (start0 start1 count0 count1 : UInt8) :
    Quiet c (Nic.advance n (c.remote start0 start1 count0 count1)) := by
  have hkept := Nic.kept_advance n (c.remote start0 start1 count0 count1)
  refine ⟨?_, hkept.mem, hkept.curr, hkept.bnry, hkept.dumped⟩
  unfold Nic.bank
  rw [hkept.command]
  exact bank_remote start0 start1 count0 count1

/-- The status says that the remote transfer is complete. -/
def Nic.Complete (c : Nic) : Prop :=
  c.isr &&& INTERRUPT_STATUS_REMOTEDMA_COMPLETE = INTERRUPT_STATUS_REMOTEDMA_COMPLETE

/-- The wait for the end of a transfer that is complete. -/
theorem exec_await {β : Type} (turns : Nat) (hbank : c.bank = 0) (hdone : c.Complete)
    (f : Driver β) :
    ∃ c', exec Nic.handle (awaitRemoteDma (turns + 1) >>= fun _ => f) c = exec Nic.handle f c' ∧
      Quiet c c' := by
  have hread : Nic.handle (.inb INTERRUPT_STATUS_BANK0_RW) c = (c.isr, c) := by
    show (c.read INTERRUPT_STATUS_BANK0_RW, c) = _
    unfold Nic.read
    rw [if_pos ⟨hbank, rfl⟩]
  have hwrite : c.write INTERRUPT_STATUS_BANK0_RW INTERRUPT_STATUS_REMOTEDMA_COMPLETE
      = { c with isr := c.isr &&& ~~~INTERRUPT_STATUS_REMOTEDMA_COMPLETE } :=
    write_bank0 c hbank (by decide) _
  have hset : ¬INTERRUPT_STATUS_REMOTEDMA_COMPLETE = 0 := by decide
  refine ⟨{ c with isr := c.isr &&& ~~~INTERRUPT_STATUS_REMOTEDMA_COMPLETE }, ?_,
    ⟨hbank, rfl, rfl, rfl, rfl⟩⟩
  rw [exec_bind]
  unfold awaitRemoteDma
  rw [exec_regRead_bind, hread]
  show (exec Nic.handle (if c.isr &&& INTERRUPT_STATUS_REMOTEDMA_COMPLETE = 0 then _ else _) c).bind _
    = _
  rw [hdone, if_neg hset, ← hwrite]
  rfl

/-! ## §2. The bytes of a packet. -/

/-- The two bytes of a word. -/
theorem word_halves (lo hi : UInt8) :
    (UInt16.ofNat (lo.toNat + 256 * hi.toNat)).toUInt8 = lo ∧
      (UInt16.ofNat (lo.toNat + 256 * hi.toNat) >>> 8).toUInt8 = hi := by
  have h0 := lo.toNat_lt
  have h1 := hi.toNat_lt
  have hnat : (UInt16.ofNat (lo.toNat + 256 * hi.toNat)).toNat = lo.toNat + 256 * hi.toNat := by
    rw [UInt16.toNat_ofNat']
    omega
  constructor
  · apply UInt8.toNat_inj.mp
    rw [UInt16.toNat_toUInt8, hnat]
    omega
  · apply UInt8.toNat_inj.mp
    rw [UInt16.toNat_toUInt8, UInt16.toNat_shiftRight, hnat]
    show (lo.toNat + 256 * hi.toNat) >>> 8 % 2 ^ 8 = _
    rw [Nat.shiftRight_eq_div_pow]
    omega

/-- `n` bytes from byte `i` of a page on. -/
def ringBytes (mem : Nat → UInt8) (page : UInt8) (i n : Nat) : List UInt8 :=
  (List.range' i n).map fun k => mem (ringAddr page k)

theorem exec_readWords (n : Nat) : ∀ {c : Nic} {i : Nat}, c.crda = ringAddr page i →
    exec Nic.handle (readWords n) c
      = some (ringBytes c.mem page i (2 * n), Nic.advance (2 * n) c) := by
  induction n with
  | zero => intro c i _; rfl
  | succ n ih =>
      intro c i hc
      have hstep : c.step.crda = ringAddr page (i + 1) := Nic.crda_advance hc 1
      have hsecond : c.step.step.crda = ringAddr page (i + 2) := Nic.crda_advance hc 2
      have hword : Nic.handle (.inw DATA_PORT_BANK012_RW) c = (UInt16.ofNat
          ((c.mem (ringAddr page i)).toNat + 256 * (c.mem (ringAddr page (i + 1))).toNat),
          c.step.step) := by
        rw [← hc, ← hstep]
        rfl
      have hhalves := word_halves (c.mem (ringAddr page i)) (c.mem (ringAddr page (i + 1)))
      unfold readWords
      rw [exec_regReadWord_bind, exec_bind, hword, ih hsecond, Option.bind_some, exec_pure,
        hhalves.1, hhalves.2]
      rfl

/-- The bytes behind the header, an odd one by itself. -/
theorem exec_readData (hbank : c.bank = 0) (hpage : InRing page) (length : UInt16) :
    exec Nic.handle (readData page length) c
      = some (ringBytes c.mem page 4 length.toNat, Nic.advance length.toNat
          (c.remote 4 page (length &&& 0xff).toUInt8 ((length >>> 8) &&& 0xff).toUInt8)) := by
  set r := c.remote 4 page (length &&& 0xff).toUInt8 ((length >>> 8) &&& 0xff).toUInt8 with hr
  have hcrda : r.crda = ringAddr page 4 := by
    rw [ringAddr_start hpage (by decide)]
    rfl
  have hodd : length &&& 1 = 0 ↔ length.toNat % 2 = 0 := by
    rw [← UInt16.toNat_inj, UInt16.toNat_and]
    show length.toNat &&& 1 = 0 ↔ _
    rw [Nat.and_one_is_mod]
  unfold readData
  rw [exec_remoteRead hbank, exec_bind, exec_readWords _ hcrda, Option.bind_some]
  by_cases heven : length &&& 1 = 0
  · have hlen := hodd.mp heven
    rw [if_pos heven, exec_pure, show 2 * (length.toNat / 2) = length.toNat by omega]
    rfl
  · have hlen : ¬length.toNat % 2 = 0 := fun h => heven (hodd.mpr h)
    have hsplit : length.toNat = 2 * (length.toNat / 2) + 1 := by omega
    have hlast := Nic.crda_advance hcrda (2 * (length.toNat / 2))
    have hmem := (Nic.kept_advance (2 * (length.toNat / 2)) r).mem
    have hread : Nic.handle (.inb DATA_PORT_BANK012_RW) (Nic.advance (2 * (length.toNat / 2)) r)
        = (c.mem (ringAddr page (4 + 2 * (length.toNat / 2))),
          Nic.advance (2 * (length.toNat / 2) + 1) r) := by
      rw [Nic.advance_succ, ← hlast]
      show ((Nic.advance _ r).mem _, _) = _
      rw [hmem]
      rfl
    have hbytes : ringBytes c.mem page 4 length.toNat
        = ringBytes c.mem page 4 (2 * (length.toNat / 2))
          ++ [c.mem (ringAddr page (4 + 2 * (length.toNat / 2)))] := by
      unfold ringBytes
      conv_lhs => rw [hsplit, List.range'_concat, List.map_append]
      rw [Nat.one_mul]
      rfl
    rw [if_neg heven, exec_regRead_bind, hread, exec_pure, hbytes, ← hsplit]
    rfl

/-! ## §3. A turn of the loop. -/

/-- The two words of the header. -/
theorem exec_readHeader (hbank : c.bank = 0) (h : Lies c.mem page p) :
    exec Nic.handle (readHeader page) c
      = some ((UInt16.ofNat (p.status.toNat + 256 * p.next.toNat),
          UInt16.ofNat (p.payload.length + 4)), Nic.advance 4 (c.remote 0 page 4 0)) := by
  set r := c.remote 0 page 4 0 with hr
  have hcrda : r.crda = ringAddr page 0 := by
    rw [ringAddr_start h.inRing (by decide)]
    rfl
  have hbyte : ∀ i (hi : i < p.bytes.length), r.mem (Nic.advance i r).crda = p.bytes[i] := by
    intro i hi
    rw [Nic.crda_advance hcrda, Nat.zero_add]
    exact h.bytes i hi
  have hlen : 4 ≤ p.bytes.length := by
    unfold Packet.bytes
    rw [List.length_append]
    exact Nat.le_add_right 4 _
  have hstatus : Nic.handle (.inw DATA_PORT_BANK012_RW) r
      = (UInt16.ofNat (p.status.toNat + 256 * p.next.toNat), Nic.advance 2 r) := by
    have h0 : r.mem r.crda = p.status := hbyte 0 (by omega)
    have h1 : r.mem r.step.crda = p.next := hbyte 1 (by omega)
    rw [← h0, ← h1]
    rfl
  have hlength : Nic.handle (.inw DATA_PORT_BANK012_RW) (Nic.advance 2 r)
      = (UInt16.ofNat (p.payload.length + 4), Nic.advance 4 r) := by
    have h2 : r.mem (Nic.advance 2 r).crda = UInt8.ofNat (p.payload.length + 4) :=
      hbyte 2 (by omega)
    have h3 : r.mem (Nic.advance 2 r).step.crda = UInt8.ofNat ((p.payload.length + 4) / 256) :=
      hbyte 3 (by omega)
    have hvalue : (UInt8.ofNat (p.payload.length + 4)).toNat
        + 256 * (UInt8.ofNat ((p.payload.length + 4) / 256)).toNat = p.payload.length + 4 := by
      have := h.fits
      rw [UInt8.toNat_ofNat', UInt8.toNat_ofNat']
      omega
    rw [← hvalue, ← h2, ← h3]
    rfl
  unfold readHeader
  rw [exec_remoteRead hbank, exec_regReadWord_bind, hstatus, exec_regReadWord_bind, hlength]
  rfl

/-- The payload is what comes after the header. -/
theorem ringBytes_payload {mem : Nat → UInt8} (h : Lies mem page p) :
    ringBytes mem page 4 p.payload.length = p.payload := by
  unfold ringBytes
  apply List.ext_getElem
  · rw [List.length_map, List.length_range']
  · intro i hi hi'
    have hlen : i + 4 < p.bytes.length := by
      unfold Packet.bytes
      rw [List.length_append]
      show i + 4 < 4 + _
      omega
    rw [List.getElem_map, List.getElem_range', Nat.one_mul, Nat.add_comm 4, h.bytes _ hlen]
    rfl

/-- The length in the header is that of the payload and of the header itself. -/
theorem length_word (h : p.payload.length + 4 < 2 ^ 16) :
    ¬UInt16.ofNat (p.payload.length + 4) = 0 ∧
      (UInt16.ofNat (p.payload.length + 4) - 4).toNat = p.payload.length := by
  have hlen : (UInt16.ofNat (p.payload.length + 4)).toNat = p.payload.length + 4 := by
    rw [UInt16.toNat_ofNat']
    omega
  have hfour : (4 : UInt16) ≤ UInt16.ofNat (p.payload.length + 4) := by
    rw [UInt16.le_iff_toNat_le, hlen]
    exact Nat.le_add_left 4 _
  constructor
  · intro h0
    rw [h0] at hlen
    have hnat : (0 : UInt16).toNat = 0 := rfl
    omega
  · rw [UInt16.toNat_sub_of_le _ _ hfour, hlen]
    rfl

theorem long_iff (h : p.payload.length + 4 < 2 ^ 16) :
    MIN_ETH_FRAME_LENGTH ≤ UInt16.ofNat (p.payload.length + 4) - 4 ↔ 18 ≤ p.payload.length := by
  rw [UInt16.le_iff_toNat_le, (length_word h).2]
  rfl

/-- The count in two registers. -/
theorem left_remote (length : UInt16) :
    (c.remote 4 page (length &&& 0xff).toUInt8 ((length >>> 8) &&& 0xff).toUInt8).left
      = length.toNat := by
  have hlow : (length &&& 0xff).toUInt8.toNat = length.toNat % 256 := by
    rw [UInt16.toNat_toUInt8, UInt16.toNat_and]
    show (length.toNat &&& 255) % 2 ^ 8 = _
    rw [Nat.and_two_pow_sub_one_eq_mod _ 8]
    omega
  have hhigh : ((length >>> 8) &&& 0xff).toUInt8.toNat = length.toNat / 256 := by
    have hlt := length.toNat_lt
    rw [UInt16.toNat_toUInt8, UInt16.toNat_and, UInt16.toNat_shiftRight]
    show (length.toNat >>> 8 &&& 255) % 2 ^ 8 = _
    rw [Nat.and_two_pow_sub_one_eq_mod _ 8, Nat.shiftRight_eq_div_pow]
    omega
  show _ * 256 + _ = _
  rw [hlow, hhigh]
  omega

/-- The header of a packet is read. -/
theorem exec_header (hbank : c.bank = 0) (h : Lies c.mem page p) :
    ∃ c', exec Nic.handle (readHeader page) c
        = some ((UInt16.ofNat (p.status.toNat + 256 * p.next.toNat),
          UInt16.ofNat (p.payload.length + 4)), c') ∧ Quiet c c' ∧ c'.Complete :=
  ⟨_, exec_readHeader hbank h, quiet_advance 4 0 page 4 0,
    Nic.complete_advance (by decide) (Nat.le_refl 4)⟩

/-- The payload of a packet is read. -/
theorem exec_payload (hbank : c.bank = 0) (h : Lies c.mem page p) (hpos : 0 < p.payload.length) :
    ∃ c', exec Nic.handle (readData page (UInt16.ofNat (p.payload.length + 4) - 4)) c
        = some (p.payload, c') ∧ Quiet c c' ∧ c'.Complete := by
  have hlen := (length_word h.fits).2
  have hread := exec_readData hbank h.inRing (UInt16.ofNat (p.payload.length + 4) - 4)
  have hleft := @left_remote c page (UInt16.ofNat (p.payload.length + 4) - 4)
  rw [hlen] at hread hleft
  rw [ringBytes_payload h] at hread
  exact ⟨_, hread, quiet_advance _ _ _ _ _, Nic.complete_advance hpos hleft.le⟩

/-- **A turn for a whole frame**: the payload is dumped, and the driver goes on at the next page. -/
theorem exec_receiveLoop_frame (turns fuel : Nat) (hbank : c.bank = 0) (hne : page ≠ current)
    (h : Lies c.mem page p) (hlong : 18 ≤ p.payload.length) :
    ∃ c', exec Nic.handle (receiveLoop (turns + 1) current (fuel + 1) page) c
        = exec Nic.handle (receiveLoop (turns + 1) current fuel p.next) c' ∧
      c'.bank = 0 ∧ c'.mem = c.mem ∧ c'.curr = c.curr ∧ c'.bnry = behind p.next ∧
      c'.dumped = c.dumped ++ [p.payload] := by
  have hnext := (word_halves p.status p.next).2
  -- the header, the wait, the payload
  obtain ⟨c₁, hheader, hq₁, hdone₁⟩ := exec_header hbank h
  obtain ⟨c₂, hwait, hq₂⟩ := exec_await turns hq₁.bank hdone₁ (do
    let data ← readData page (UInt16.ofNat (p.payload.length + 4) - 4)
    awaitRemoteDma (turns + 1)
    regWrite BOUNDARY_POINTER_BANK0_RW (behind p.next)
    let _ : Unit ← access (.dump data)
    receiveLoop (turns + 1) current fuel p.next)
  have hmem₂ : c₂.mem = c.mem := hq₂.mem.trans hq₁.mem
  have h₂ : Lies c₂.mem page p := by rwa [hmem₂]
  obtain ⟨c₃, hpayload, hq₃, hdone₃⟩ := exec_payload hq₂.bank h₂ (by omega)
  -- the wait again, the boundary and the dump
  obtain ⟨c₄, hwait', hq₄⟩ := exec_await turns hq₃.bank hdone₃ (do
    regWrite BOUNDARY_POINTER_BANK0_RW (behind p.next)
    let _ : Unit ← access (.dump p.payload)
    receiveLoop (turns + 1) current fuel p.next)
  have hwrite : c₄.write BOUNDARY_POINTER_BANK0_RW (behind p.next)
      = { c₄ with bnry := behind p.next } := write_bank0 c₄ hq₄.bank (by decide) _
  refine ⟨{ c₄ with bnry := behind p.next, dumped := c₄.dumped ++ [p.payload] }, ?_, hq₄.bank,
    hq₄.mem.trans (hq₃.mem.trans hmem₂), ?_, rfl, ?_⟩
  · conv_lhs => unfold receiveLoop
    rw [if_pos hne, exec_bind, hheader, Option.bind_some]
    dsimp only
    rw [if_neg (length_word h.fits).1, if_pos ((long_iff h.fits).mpr hlong), hnext, hwait,
      exec_bind, hpayload, Option.bind_some]
    dsimp only
    rw [hwait', exec_regWrite_bind]
    show exec Nic.handle (receiveLoop (turns + 1) current fuel p.next)
      { c₄.write BOUNDARY_POINTER_BANK0_RW (behind p.next) with
        dumped := (c₄.write BOUNDARY_POINTER_BANK0_RW (behind p.next)).dumped ++ [p.payload] } = _
    rw [hwrite]
  · show c₄.curr = _
    rw [hq₄.curr, hq₃.curr, hq₂.curr, hq₁.curr]
  · show c₄.dumped ++ _ = _
    rw [hq₄.dumped, hq₃.dumped, hq₂.dumped, hq₁.dumped]

/-- **A turn for a shorter packet**: the driver goes on at the same page. -/
theorem exec_receiveLoop_runt (turns fuel : Nat) (hbank : c.bank = 0) (hne : page ≠ current)
    (h : Lies c.mem page p) (hshort : p.payload.length < 18) :
    ∃ c', exec Nic.handle (receiveLoop turns current (fuel + 1) page) c
        = exec Nic.handle (receiveLoop turns current fuel page) c' ∧
      c'.bank = 0 ∧ c'.mem = c.mem := by
  have hsmall := mt (long_iff h.fits).mp (by omega)
  obtain ⟨c₁, hheader, hq₁, -⟩ := exec_header hbank h
  refine ⟨c₁, ?_, hq₁.bank, hq₁.mem⟩
  conv_lhs => unfold receiveLoop
  rw [if_pos hne, exec_bind, hheader, Option.bind_some]
  dsimp only
  rw [if_neg (length_word h.fits).1, if_neg hsmall]

/-! ## §4. The whole ring. -/

/-- At a shorter packet the loop stays. -/
theorem receiveLoop_stuck (turns fuel : Nat) (hbank : c.bank = 0) (hne : page ≠ current)
    (h : Lies c.mem page p) (hshort : p.payload.length < 18) :
    exec Nic.handle (receiveLoop turns current fuel page) c = none := by
  induction fuel generalizing c with
  | zero => rfl
  | succ fuel ih =>
      obtain ⟨c', hturn, hbank', hmem⟩ := exec_receiveLoop_runt turns fuel hbank hne h hshort
      rw [hturn]
      exact ih hbank' (hmem ▸ h)

/-- packet_received returns, and has dumped the payloads of the packets, once and in their order,
and gone up to the current page. -/
def Drains (turns : Nat) (c : Nic) (page : UInt8) (ps : List Packet) : Prop :=
  ∃ fuel c', exec Nic.handle (packetReceived turns fuel page) c = some (c.curr, c') ∧
    c'.dumped = c.dumped ++ ps.map Packet.payload ∧ c'.bnry = behind c.curr

/-- The loop over packets that are all whole frames. -/
theorem exec_receiveLoop_frames (turns : Nat) {ps : List Packet} :
    ∀ {page : UInt8} {c : Nic}, c.bank = 0 → Chain c.mem current page ps →
      (∀ p ∈ ps, 18 ≤ p.payload.length) →
      ∃ c', exec Nic.handle (receiveLoop (turns + 1) current (ps.length + 1) page) c
          = some (current, c') ∧ c'.dumped = c.dumped ++ ps.map Packet.payload ∧
        c'.bnry = if ps = [] then c.bnry else behind current := by
  induction ps with
  | nil =>
      intro page c hbank hchain _
      cases hchain
      refine ⟨c, ?_, (List.append_nil _).symm, rfl⟩
      unfold receiveLoop
      rw [if_neg (by simp)]
      rfl
  | cons p ps ih =>
      intro page c hbank hchain hlong
      cases hchain with
      | cons hne hlies hrest =>
          obtain ⟨c', hturn, hbank', hmem, -, hbnry, hdumped⟩ := exec_receiveLoop_frame turns
            (ps.length + 1) hbank hne hlies (hlong p List.mem_cons_self)
          obtain ⟨c'', hrun, hdumped', hbnry'⟩ := ih hbank' (hmem ▸ hrest)
            fun q hq => hlong q (List.mem_cons_of_mem p hq)
          refine ⟨c'', hturn.trans hrun, ?_, ?_⟩
          · rw [hdumped', hdumped, List.map_cons, List.append_assoc]
            rfl
          · rw [if_neg (List.cons_ne_nil p ps), hbnry']
            by_cases hps : ps = []
            · subst hps
              cases hrest
              rw [if_pos rfl, hbnry]
            · rw [if_neg hps]

/-- The loop over packets of which one is shorter. -/
theorem receiveLoop_of_runt (turns : Nat) {ps : List Packet} :
    ∀ {page : UInt8} {c : Nic} (fuel : Nat), c.bank = 0 → Chain c.mem current page ps →
      (∃ p ∈ ps, p.payload.length < 18) →
      exec Nic.handle (receiveLoop (turns + 1) current fuel page) c = none := by
  induction ps with
  | nil => intro page c fuel _ _ ⟨p, hp, _⟩; cases hp
  | cons p ps ih =>
      intro page c fuel hbank hchain hrunt
      cases hchain with
      | cons hne hlies hrest =>
          by_cases hshort : p.payload.length < 18
          · exact receiveLoop_stuck (turns + 1) fuel hbank hne hlies hshort
          · obtain ⟨q, hq, hqshort⟩ := hrunt
            have hq : q ∈ ps := by
              rcases List.mem_cons.mp hq with rfl | hq
              · exact absurd hqshort hshort
              · exact hq
            cases fuel with
            | zero => rfl
            | succ fuel =>
                obtain ⟨c', hturn, hbank', hmem, -⟩ := exec_receiveLoop_frame turns fuel hbank hne
                  hlies (Nat.le_of_not_lt hshort)
                rw [hturn]
                exact ih fuel hbank' (hmem ▸ hrest) ⟨q, hq, hqshort⟩

theorem handle_readCurrent (hbank : c.bank = 1) :
    Nic.handle (.inb CURRENT_PAGE_BANK1_RW) c = (c.curr, c) := by
  have hother : ¬(c.bank = 0 ∧ CURRENT_PAGE_BANK1_RW = INTERRUPT_STATUS_BANK0_RW) := by
    rw [hbank]
    decide
  show (c.read CURRENT_PAGE_BANK1_RW, c) = _
  unfold Nic.read
  rw [if_neg hother, if_pos ⟨hbank, rfl⟩]

/-- The loop starts at the current page, from the card as it was. -/
theorem exec_packetReceived (turns fuel : Nat) (c : Nic) (page : UInt8) :
    ∃ c', exec Nic.handle (packetReceived turns fuel page) c
        = exec Nic.handle (receiveLoop turns c.curr fuel page) c' ∧ Quiet c c' := by
  have hstop : (Nic.handle (.outb COMMAND_BANK012_RW
        (COMMAND_BANK1 ||| COMMAND_REMOTEDMA_ABORT ||| COMMAND_STOP)) c).2
      = { c with command := COMMAND_BANK1 ||| COMMAND_REMOTEDMA_ABORT ||| COMMAND_STOP, left := 0 } :=
    rfl
  have hread : Nic.handle (.inb CURRENT_PAGE_BANK1_RW)
        { c with command := COMMAND_BANK1 ||| COMMAND_REMOTEDMA_ABORT ||| COMMAND_STOP, left := 0 }
      = (c.curr, { c with
          command := COMMAND_BANK1 ||| COMMAND_REMOTEDMA_ABORT ||| COMMAND_STOP, left := 0 }) :=
    handle_readCurrent
      (show (COMMAND_BANK1 ||| COMMAND_REMOTEDMA_ABORT ||| COMMAND_STOP) >>> 6 = 1 by decide)
  refine ⟨{ c with command := COMMAND_BANK0 ||| COMMAND_REMOTEDMA_ABORT ||| COMMAND_STOP, left := 0 },
    ?_, show (COMMAND_BANK0 ||| COMMAND_REMOTEDMA_ABORT ||| COMMAND_STOP) >>> 6 = 0 by decide,
    rfl, rfl, rfl, rfl⟩
  unfold packetReceived
  rw [exec_regWrite_bind, hstop, exec_regRead_bind, hread]
  rfl

/-- **The ring is drained exactly when** every packet in it is a whole frame, and there is one, if
the boundary is not already where it belongs. -/
theorem packetReceived_drains_iff (turns : Nat) (c : Nic) (page : UInt8) (ps : List Packet)
    (hchain : Chain c.mem c.curr page ps) :
    Drains (turns + 1) c page ps ↔
      (∀ p ∈ ps, 18 ≤ p.payload.length) ∧ (ps = [] → c.bnry = behind c.curr) := by
  constructor
  · intro ⟨fuel, c', hrun, _, hbnry⟩
    obtain ⟨c₁, hstart, hq⟩ := exec_packetReceived (turns + 1) fuel c page
    have hchain₁ : Chain c₁.mem c.curr page ps := by rwa [hq.mem]
    rw [hstart] at hrun
    have hlong : ∀ p ∈ ps, 18 ≤ p.payload.length := by
      intro p hp
      by_contra hshort
      rw [receiveLoop_of_runt turns fuel hq.bank hchain₁ ⟨p, hp, by omega⟩] at hrun
      cases hrun
    refine ⟨hlong, fun hps => ?_⟩
    subst hps
    cases fuel with
    | zero => cases hrun
    | succ fuel =>
        cases hchain
        unfold receiveLoop at hrun
        rw [if_neg (by simp)] at hrun
        cases hrun
        rw [← hq.bnry]
        exact hbnry
  · intro ⟨hlong, hempty⟩
    obtain ⟨c₁, hstart, hq⟩ := exec_packetReceived (turns + 1) (ps.length + 1) c page
    have hchain₁ : Chain c₁.mem c.curr page ps := by rwa [hq.mem]
    obtain ⟨c', hrun, hdumped, hbnry⟩ := exec_receiveLoop_frames turns hq.bank hchain₁ hlong
    refine ⟨ps.length + 1, c', hstart.trans hrun, ?_, ?_⟩
    · rw [hdumped, hq.dumped]
    · rw [hbnry]
      by_cases hps : ps = []
      · rw [if_pos hps, hq.bnry]
        exact hempty hps
      · rw [if_neg hps]

/-- A card with the packet `p` at page 0x51, and nothing behind it. -/
def oneInRing (p : Packet) : Nic where
  mem a := p.bytes.getD (a - 0x5100) 0
  command := 0x22
  isr := 1
  imr := 0x3f
  bnry := 0x50
  curr := 0x52
  rsar0 := 0
  rsar1 := 0
  rbcr0 := 0
  rbcr1 := 0
  crda := 0
  left := 0
  dumped := []

/-- A frame of 20 bytes, and one of 8, which the driver asks the card for too. -/
def frame20 : Packet := ⟨1, 0x52, List.replicate 20 7⟩

def runtFrame : Packet := ⟨1, 0x52, List.replicate 8 5⟩

theorem chain_oneInRing {p : Packet} (hnext : p.next = 0x52) (hshort : p.bytes.length ≤ 256) :
    Chain (oneInRing p).mem 0x52 0x51 [p] := by
  have hlen : p.bytes.length = 4 + p.payload.length := by
    unfold Packet.bytes
    rw [List.length_append]
    rfl
  refine .cons (by decide) ⟨⟨by decide, by decide⟩, by omega, ?_⟩ (hnext ▸ .nil)
  intro i hi
  rw [ringAddr_start ⟨by decide, by decide⟩ (by omega)]
  have hpage : (0x51 : UInt8).toNat = 81 := rfl
  unfold oneInRing
  dsimp only
  rw [hpage, show 81 * 256 + i - 0x5100 = i by omega, List.getD_eq_getElem?_getD,
    List.getElem?_eq_getElem hi]
  rfl

theorem packetReceived_drains_frame :
    Chain (oneInRing frame20).mem (oneInRing frame20).curr 0x51 [frame20] ∧
      Drains 1 (oneInRing frame20) 0x51 [frame20] :=
  ⟨chain_oneInRing rfl (by decide), (packetReceived_drains_iff 0 (oneInRing frame20) 0x51 [frame20]
    (chain_oneInRing rfl (by decide))).mpr ⟨by decide, fun h => absurd h (by decide)⟩⟩

/-- With a packet of 8 bytes in the ring the driver does not come back. -/
theorem packetReceived_stays_at_runt : ¬ Drains 1 (oneInRing runtFrame) 0x51 [runtFrame] := by
  intro ⟨fuel, c', hrun, _⟩
  obtain ⟨c₁, hstart, hq⟩ := exec_packetReceived 1 fuel (oneInRing runtFrame) 0x51
  have hchain : Chain c₁.mem (oneInRing runtFrame).curr 0x51 [runtFrame] := by
    rw [hq.mem]
    exact chain_oneInRing rfl (by decide)
  rw [hstart, receiveLoop_of_runt 0 fuel hq.bank hchain ⟨runtFrame, by decide, by decide⟩] at hrun
  cases hrun

end Metta.Ne2k
