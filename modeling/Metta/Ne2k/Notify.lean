/-
  Metta.Ne2k.Notify — packets that arrive while an interrupt is handled.

  The card appends packets to the ring whenever it is started, which it is again from the first
  remote read on.  The driver reads the current page once, and clears the status of received
  packets at the end: a packet that arrives in between is neither seen nor remembered.

    • `Arrives` — a packet arrives,
    • `watched` — the card, with a note whether such a packet would be lost,
    • `Arrival`, `InTime` — arrivals at any time, and at a time when they are not lost,
    • `Rest` — the invariant between two interrupts, `ensures_handleIrq`,
    • `Reach`, `noticed_of_inTime` — packets in the ring are noticed.
-/
import Metta.Ne2k.Receive

namespace Metta.Ne2k

open Metta.Machine Metta.Machine.Interaction

/-! ## §1. Arrivals. -/

/-- One page ahead in the ring. -/
def ahead (page : UInt8) : UInt8 := if page = PAGE_STOP - 1 then PAGE_RX else page + 1

theorem ahead_behind {page : UInt8} (h : InRing page) : ahead (behind page) = page := by
  have hall : ∀ x : Fin 256, PAGE_RX.toNat ≤ x.val → x.val < PAGE_STOP.toNat →
      ahead (behind (UInt8.ofNat x.val)) = UInt8.ofNat x.val := by decide +kernel
  have hx := hall ⟨page.toNat, page.toNat_lt⟩ (UInt8.le_iff_toNat_le.mp h.1)
    (UInt8.lt_iff_toNat_lt.mp h.2)
  rwa [UInt8.ofNat_toNat] at hx

/-- The card appends the packet `p` to the ring, goes on to the page behind it, and sets the bit for
received packets. -/
structure Arrives (c c' : Nic) (p : Packet) : Prop where
  started : c.started
  appended : ∀ ps, Chain c.mem c.curr (ahead c.bnry) ps →
    Chain c'.mem c'.curr (ahead c.bnry) (ps ++ [p])
  inRing : InRing c'.curr
  isr : c'.isr = c.isr ||| INTERRUPT_STATUS_PACKET_RECEIVED
  command : c'.command = c.command
  bnry : c'.bnry = c.bnry

/-- The note: the current page has been read, and the bit has not been cleared since. -/
def noteOf : Access → Nic × Bool → Bool
  | .inb regno, s => if s.1.bank = 1 ∧ regno = CURRENT_PAGE_BANK1_RW then true else s.2
  | .outb regno v, s =>
      if s.1.bank = 0 ∧ regno = INTERRUPT_STATUS_BANK0_RW ∧ v &&& INTERRUPT_STATUS_PACKET_RECEIVED ≠ 0
      then false else s.2
  | _, s => s.2

/-- The card with the note. -/
def watched (o : Access) (s : Nic × Bool) : o.Result × Nic × Bool :=
  ((Nic.handle o s.1).1, (Nic.handle o s.1).2, noteOf o s)

/-- A packet may arrive at any time. -/
def Arrival (s s' : Nic × Bool) : Prop := (∃ p, Arrives s.1 s'.1 p) ∧ s'.2 = s.2

/-- A packet may arrive before the current page is read, and after the bit is cleared. -/
def InTime (s s' : Nic × Bool) : Prop := Arrival s s' ∧ s.2 = false

/-! ## §2. The invariant. -/

/-- There are packets in the ring from `next` on, and if there are any the bit is set. -/
structure Rest (next : UInt8) (s : Nic × Bool) : Prop where
  note : s.2 = false
  bank : s.1.bank = 0
  boundary : ahead s.1.bnry = next
  inRing : InRing s.1.curr
  chain : ∃ ps, Chain s.1.mem s.1.curr next ps ∧
    (ps ≠ [] → s.1.isr &&& INTERRUPT_STATUS_PACKET_RECEIVED ≠ 0)

/-- The driver has gone up to the page that it has read, and the card has not moved since. -/
structure Drained (next : UInt8) (s : Nic × Bool) : Prop where
  note : s.2 = true
  bank : s.1.bank = 0
  boundary : ahead s.1.bnry = next
  inRing : InRing s.1.curr
  current : s.1.curr = next

/-- The driver has read the page, and goes through the ring. -/
structure Draining (next current : UInt8) (s : Nic × Bool) : Prop where
  note : s.2 = true
  boundary : ahead s.1.bnry = next
  inRing : InRing s.1.curr
  current : s.1.curr = current
  chain : ∃ ps, Chain s.1.mem s.1.curr next ps

theorem or_received (v : UInt8) :
    (v ||| INTERRUPT_STATUS_PACKET_RECEIVED) &&& INTERRUPT_STATUS_PACKET_RECEIVED ≠ 0 := by
  have h : ∀ w : BitVec 8, (w ||| 1) &&& 1 ≠ 0 := by decide
  intro h0
  exact h v.toBitVec (congrArg UInt8.toBitVec h0)

variable {next current : UInt8}

/-- Arrivals keep the invariant: there are packets, and the bit is set. -/
theorem stable_rest (next : UInt8) : Stable InTime (Rest next) := by
  intro s s' hs hmoved
  obtain ⟨⟨⟨p, hp⟩, hnote⟩, -⟩ := hmoved
  obtain ⟨ps, hchain, -⟩ := hs.chain
  refine ⟨hnote.trans hs.note, ?_, ?_, hp.inRing, ps ++ [p], ?_, ?_⟩
  · unfold Nic.bank
    rw [hp.command]
    exact hs.bank
  · rw [hp.bnry]
    exact hs.boundary
  · have happended := hp.appended ps
    rw [hs.boundary] at happended
    exact happended hchain
  · intro _
    rw [hp.isr]
    exact or_received s.1.isr

/-- While the note is set no packet arrives in time. -/
theorem not_inTime {s s' : Nic × Bool} (h : s.2 = true) : ¬InTime s s' := by
  intro hmoved
  have hnote := hmoved.2
  rw [h] at hnote
  cases hnote

theorem stable_drained (next : UInt8) : Stable InTime (Drained next) :=
  fun _ _ hs hmoved => absurd hmoved (not_inTime hs.note)

theorem stable_draining (next current : UInt8) : Stable InTime (Draining next current) :=
  fun _ _ hs hmoved => absurd hmoved (not_inTime hs.note)

/-! ## §3. The loop over the ring. -/

/-- A wait without turns does not end. -/
theorem exec_receiveLoop_frame_zero {c : Nic} {page : UInt8} {p : Packet} (fuel : Nat)
    (hbank : c.bank = 0) (hne : page ≠ current) (h : Lies c.mem page p)
    (hlong : 18 ≤ p.payload.length) :
    exec Nic.handle (receiveLoop 0 current (fuel + 1) page) c = none := by
  obtain ⟨c₁, hheader, -⟩ := exec_header hbank h
  unfold receiveLoop
  rw [if_pos hne, exec_bind, hheader, Option.bind_some]
  dsimp only
  rw [if_neg (length_word h.fits).1, if_pos ((long_iff h.fits).mpr hlong)]
  rfl

/-- If the loop ends, it has gone up to the page that was read. -/
theorem receiveLoop_ends (turns : Nat) {ps : List Packet} :
    ∀ {page : UInt8} {c c' : Nic} {r : UInt8} (fuel : Nat), c.bank = 0 →
      Chain c.mem current page ps → ahead c.bnry = page → InRing current →
      exec Nic.handle (receiveLoop turns current fuel page) c = some (r, c') →
      r = current ∧ c'.bank = 0 ∧ c'.curr = c.curr ∧ ahead c'.bnry = current := by
  induction ps with
  | nil =>
      intro page c c' r fuel hbank hchain hbnry _ hrun
      cases hchain
      -- the ring is empty from the page on
      cases fuel with
      | zero => cases hrun
      | succ fuel =>
          unfold receiveLoop at hrun
          rw [if_neg (by simp)] at hrun
          cases hrun
          exact ⟨rfl, hbank, rfl, hbnry⟩
  | cons p ps ih =>
      intro page c c' r fuel hbank hchain hbnry hring hrun
      cases hchain with
      | cons hne hlies hrest =>
          -- a packet that is too short is never passed
          by_cases hshort : p.payload.length < 18
          · rw [receiveLoop_stuck turns fuel hbank hne hlies hshort] at hrun
            cases hrun
          -- a packet that is long enough is read, and the boundary follows
          have hlong : 18 ≤ p.payload.length := Nat.le_of_not_lt hshort
          cases fuel with
          | zero => cases hrun
          | succ fuel =>
              cases turns with
              | zero =>
                  rw [exec_receiveLoop_frame_zero fuel hbank hne hlies hlong] at hrun
                  cases hrun
              | succ turns =>
                  obtain ⟨c₁, hturn, hbank₁, hmem₁, hcurr₁, hbnry₁, -⟩ :=
                    exec_receiveLoop_frame turns fuel hbank hne hlies hlong
                  rw [hturn] at hrun
                  have hpage : InRing p.next := by
                    cases hrest with
                    | nil => exact hring
                    | cons _ hlies' _ => exact hlies'.inRing
                  have hahead : ahead c₁.bnry = p.next := by rw [hbnry₁, ahead_behind hpage]
                  obtain ⟨hr, hbank', hcurr', hbnry'⟩ :=
                    ih fuel hbank₁ (hmem₁ ▸ hrest) hahead hring hrun
                  exact ⟨hr, hbank', hcurr'.trans hcurr₁, hbnry'⟩

/-- An access that does not clear the bit. -/
def Keeps : Access → Prop
  | .outb regno v => regno = INTERRUPT_STATUS_BANK0_RW → v &&& INTERRUPT_STATUS_PACKET_RECEIVED = 0
  | _ => True

theorem note_of_keeps {o : Access} {s : Nic × Bool} (ho : Keeps o) (hs : s.2 = true) :
    (watched o s).2.2 = true := by
  show noteOf o s = true
  cases o with
  | inb regno =>
      show (if _ then true else s.2) = true
      rw [hs, ite_self]
  | outb regno v => exact (if_neg fun h => h.2.2 (ho h.2.1)).trans hs
  | _ => exact hs

theorem only_regWrite {regno : Nat} (v : UInt8) (h : regno ≠ INTERRUPT_STATUS_BANK0_RW) :
    Only Keeps (regWrite regno v) := ⟨fun h' => absurd h' h, fun _ => trivial⟩

theorem only_awaitRemoteDma (turns : Nat) : Only Keeps (awaitRemoteDma turns) := by
  induction turns with
  | zero => exact trivial
  | succ turns ih =>
      refine ⟨trivial, fun status => ?_⟩
      show Only Keeps (if status &&& INTERRUPT_STATUS_REMOTEDMA_COMPLETE = 0 then
        awaitRemoteDma turns
        else regWrite INTERRUPT_STATUS_BANK0_RW INTERRUPT_STATUS_REMOTEDMA_COMPLETE)
      by_cases h : status &&& INTERRUPT_STATUS_REMOTEDMA_COMPLETE = 0
      · rw [if_pos h]
        exact ih
      · rw [if_neg h]
        exact ⟨fun _ => by decide, fun _ => trivial⟩

theorem only_remoteRead {β : Type} (start0 start1 count0 count1 : UInt8) {f : Driver β}
    (hf : Only Keeps f) : Only Keeps (do
      remoteArea start0 start1 count0 count1
      regWrite COMMAND_BANK012_RW (COMMAND_BANK0 ||| COMMAND_REMOTEDMA_READ ||| COMMAND_START)
      f) :=
  Only.bind ((only_regWrite _ (by decide)).bind fun _ => (only_regWrite _ (by decide)).bind fun _ =>
    (only_regWrite _ (by decide)).bind fun _ => only_regWrite _ (by decide)) fun _ =>
    (only_regWrite _ (by decide)).bind fun _ => hf

theorem only_readWords (n : Nat) : Only Keeps (readWords n) := by
  induction n with
  | zero => exact trivial
  | succ n ih => exact ⟨trivial, fun _ => ih.bind fun _ => trivial⟩

theorem only_readData (page : UInt8) (length : UInt16) : Only Keeps (readData page length) := by
  refine only_remoteRead _ _ _ _ ((only_readWords _).bind fun data => ?_)
  by_cases h : length &&& 1 = 0
  · rw [if_pos h]
    exact trivial
  · rw [if_neg h]
    exact ⟨trivial, fun _ => trivial⟩

/-- **The loop does not clear the bit.** -/
theorem only_receiveLoop (turns : Nat) (current : UInt8) (fuel : Nat) (page : UInt8) :
    Only Keeps (receiveLoop turns current fuel page) := by
  induction fuel generalizing page with
  | zero => exact trivial
  | succ fuel ih =>
      unfold receiveLoop
      by_cases hne : page ≠ current
      · rw [if_pos hne]
        have hheader : Only Keeps (readHeader page) :=
          only_remoteRead _ _ _ _ ⟨trivial, fun _ => ⟨trivial, fun _ => trivial⟩⟩
        refine hheader.bind fun header => ?_
        obtain ⟨status, length⟩ := header
        dsimp only
        by_cases hzero : length = 0
        · rw [if_pos hzero]
          exact trivial
        rw [if_neg hzero]
        by_cases hlong : MIN_ETH_FRAME_LENGTH ≤ length - 4
        · rw [if_pos hlong]
          exact (only_awaitRemoteDma turns).bind fun _ => (only_readData _ _).bind fun _ =>
            (only_awaitRemoteDma turns).bind fun _ => (only_regWrite _ (by decide)).bind fun _ =>
            ⟨trivial, fun _ => ih _⟩
        · rw [if_neg hlong]
          exact ih _
      · rw [if_neg hne]
        exact trivial

/-! ## §4. The interrupt routine. -/

theorem ensures_regWrite {P Q : Nic × Bool → Prop} {regno : Nat} {v : UInt8}
    (hP : Stable InTime P) (hQ : Stable InTime Q)
    (h : ∀ s, P s → Q (watched (.outb regno v) s).2) :
    Ensures InTime watched P (regWrite regno v) fun _ => Q := by
  refine ensures_call hP fun r => ensures_done hQ ?_
  intro s' ⟨s, hs, heq⟩
  have hnext : s' = (watched (.outb regno v) s).2 := by rw [heq]
  rw [hnext]
  exact h s hs

theorem ensures_regRead {P : Nic × Bool → Prop} {Q : UInt8 → Nic × Bool → Prop} {regno : Nat}
    (hP : Stable InTime P) (hQ : ∀ r, Stable InTime (Q r))
    (h : ∀ s, P s → Q (watched (.inb regno) s).1 (watched (.inb regno) s).2) :
    Ensures InTime watched P (regRead regno) Q := by
  refine ensures_call hP fun r => ensures_done (hQ r) ?_
  intro s' ⟨s, hs, heq⟩
  have hthis := h s hs
  rwa [heq] at hthis

/-- The card is stopped, and the registers of bank 1 are selected. -/
structure Stopped (next : UInt8) (s : Nic × Bool) : Prop where
  note : s.2 = false
  bank : s.1.bank = 1
  stopped : ¬s.1.started
  boundary : ahead s.1.bnry = next
  inRing : InRing s.1.curr
  chain : ∃ ps, Chain s.1.mem s.1.curr next ps

/-- Nothing arrives at a card that is stopped. -/
theorem stable_stopped (next : UInt8) : Stable InTime (Stopped next) := by
  intro s s' hs hmoved
  obtain ⟨⟨⟨p, hp⟩, -⟩, -⟩ := hmoved
  exact absurd hp.started hs.stopped

/-- The loop, from the card with the page that was read. -/
theorem ensures_receiveLoop (turns fuel : Nat) (next current : UInt8) :
    Ensures InTime watched (fun s => Draining next current s ∧ s.1.bank = 0)
      (receiveLoop turns current fuel next) Drained := by
  intro s r s' ⟨hs, hbank⟩ hrun
  -- nothing arrives while the loop runs
  obtain ⟨hexec, hnote⟩ := exec_of_runs (P := fun s => s.2 = true) (fun s s' h => not_inTime h)
    (fun o s ho h => note_of_keeps ho h) (only_receiveLoop turns current fuel next) hs.note hrun
  have hnic : exec Nic.handle (receiveLoop turns current fuel next) s.1
      = (exec watched (receiveLoop turns current fuel next) s).map fun x => (x.1, x.2.1) :=
    exec_map Prod.fst (fun o s => rfl) (receiveLoop turns current fuel next) s
  rw [hexec] at hnic
  obtain ⟨ps, hchain⟩ := hs.chain
  have hring := hs.inRing
  rw [hs.current] at hchain hring
  obtain ⟨hr, hbank', hcurr, hbnry⟩ :=
    receiveLoop_ends turns fuel hbank hchain hs.boundary hring hnic
  have hcurrent : s'.1.curr = current := hcurr.trans hs.current
  refine ⟨hnote, hbank', hbnry.trans hr.symm, ?_, hcurrent.trans hr.symm⟩
  rw [hcurrent]
  exact hring

theorem ensures_packetReceived (turns fuel : Nat) (next : UInt8) :
    Ensures InTime watched (Rest next) (packetReceived turns fuel next) Drained := by
  unfold packetReceived
  refine ensures_bind (Q := fun _ => Stopped next) ?_ fun _ => ?_
  · refine ensures_regWrite (stable_rest next) (stable_stopped next) fun s hs => ?_
    obtain ⟨ps, hchain, -⟩ := hs.chain
    refine ⟨?_, ?_, ?_, hs.boundary, hs.inRing, ps, hchain⟩
    · exact (if_neg fun h => absurd h.2.1 (by decide)).trans hs.note
    · show (COMMAND_BANK1 ||| COMMAND_REMOTEDMA_ABORT ||| COMMAND_STOP) >>> 6 = 1
      decide
    · intro hstarted
      have h0 : (COMMAND_BANK1 ||| COMMAND_REMOTEDMA_ABORT ||| COMMAND_STOP) &&& COMMAND_START = 0 := by
        decide
      exact hstarted.1 h0
  refine ensures_bind (Q := fun current => Draining next current) ?_ fun current => ?_
  · refine ensures_regRead (stable_stopped next) (stable_draining next) fun s hs => ?_
    have hread := handle_readCurrent hs.bank
    have hcurr : (watched (.inb CURRENT_PAGE_BANK1_RW) s).1 = s.1.curr := congrArg Prod.fst hread
    have hcard : (watched (.inb CURRENT_PAGE_BANK1_RW) s).2.1 = s.1 := congrArg Prod.snd hread
    rw [hcurr]
    refine ⟨if_pos ⟨hs.bank, rfl⟩, ?_, ?_, ?_, ?_⟩
    · rw [hcard]
      exact hs.boundary
    · rw [hcard]
      exact hs.inRing
    · rw [hcard]
    · rw [hcard]
      exact hs.chain
  refine ensures_bind (Q := fun _ s => Draining next current s ∧ s.1.bank = 0) ?_
    fun _ => ensures_receiveLoop turns fuel next current
  have hstill : Stable InTime fun s => Draining next current s ∧ s.1.bank = 0 :=
    fun _ _ hs hmoved => absurd hmoved (not_inTime hs.1.note)
  refine ensures_regWrite (stable_draining next current) hstill fun s hs => ⟨?_, ?_⟩
  · refine ⟨?_, hs.boundary, hs.inRing, hs.current, hs.chain⟩
    exact (if_neg fun h => absurd h.2.1 (by decide)).trans hs.note
  · show (COMMAND_BANK0 ||| COMMAND_REMOTEDMA_ABORT ||| COMMAND_STOP) >>> 6 = 0
    decide

/-- The bit for received packets is handled when it was read. -/
theorem handledReasons_received (reason : UInt8) :
    handledReasons reason &&& INTERRUPT_STATUS_PACKET_RECEIVED
      = reason &&& INTERRUPT_STATUS_PACKET_RECEIVED := by
  have hall : ∀ x : Fin 256, handledReasons (UInt8.ofNat x.val) &&& INTERRUPT_STATUS_PACKET_RECEIVED
      = UInt8.ofNat x.val &&& INTERRUPT_STATUS_PACKET_RECEIVED := by decide +kernel
  have h := hall ⟨reason.toNat, reason.toNat_lt⟩
  rwa [UInt8.ofNat_toNat] at h

/-- A write of other bits leaves the bit as it is. -/
theorem received_of_clear {v isr : UInt8} (hv : v &&& INTERRUPT_STATUS_PACKET_RECEIVED = 0) :
    (isr &&& ~~~v) &&& INTERRUPT_STATUS_PACKET_RECEIVED
      = isr &&& INTERRUPT_STATUS_PACKET_RECEIVED := by
  have h : ∀ w : BitVec 8, w &&& 1 = 0 → ~~~w &&& 1 = 1 := by decide
  have hnot : ~~~v &&& INTERRUPT_STATUS_PACKET_RECEIVED = INTERRUPT_STATUS_PACKET_RECEIVED :=
    UInt8.toBitVec_inj.mp (h v.toBitVec (congrArg UInt8.toBitVec hv))
  rw [UInt8.and_assoc, hnot]

theorem write_mask (s : Nic × Bool) (hbank : s.1.bank = 0) (v : UInt8) :
    (watched (.outb INTERRUPT_MASK_BANK0_W v) s).2 = ({ s.1 with imr := v }, s.2) := by
  have hcard := write_bank0 s.1 hbank (show INTERRUPT_MASK_BANK0_W ≠ _ by decide) v
  have hnote : noteOf (.outb INTERRUPT_MASK_BANK0_W v) s = s.2 :=
    if_neg fun h => absurd h.2.1 (by decide)
  show (s.1.write INTERRUPT_MASK_BANK0_W v, noteOf _ s) = _
  rw [hcard, hnote]
  rfl

theorem write_status (s : Nic × Bool) (hbank : s.1.bank = 0) (v : UInt8) :
    (watched (.outb INTERRUPT_STATUS_BANK0_RW v) s).2
      = ({ s.1 with isr := s.1.isr &&& ~~~v },
        if v &&& INTERRUPT_STATUS_PACKET_RECEIVED ≠ 0 then false else s.2) := by
  have hcard := write_bank0 s.1 hbank (show INTERRUPT_STATUS_BANK0_RW ≠ _ by decide) v
  show (s.1.write INTERRUPT_STATUS_BANK0_RW v, noteOf _ s) = _
  rw [hcard]
  unfold noteOf
  dsimp only
  rw [hbank]
  simp only [true_and]
  rfl

theorem ensures_handleReceived (turns fuel : Nat) (next : UInt8) :
    Ensures InTime watched (Rest next) (handleReceived turns fuel next) Drained := by
  unfold handleReceived
  refine ensures_bind (Q := fun _ => Rest next) ?_ fun _ => ?_
  · refine ensures_regWrite (stable_rest next) (stable_rest next) fun s hs => ?_
    rw [write_mask s hs.bank]
    exact ⟨hs.note, hs.bank, hs.boundary, hs.inRing, hs.chain⟩
  refine ensures_bind (ensures_packetReceived turns fuel next) fun next' => ?_
  refine ensures_bind (Q := fun _ => Drained next') ?_
    fun _ => ensures_done (stable_drained next') fun _ h => h
  refine ensures_regWrite (stable_drained next') (stable_drained next') fun s hs => ?_
  rw [write_mask s hs.bank]
  exact ⟨hs.note, hs.bank, hs.boundary, hs.inRing, hs.current⟩

/-- The bit is cleared when the ring is drained. -/
theorem ensures_clear_received (next : UInt8) {v : UInt8}
    (hv : v &&& INTERRUPT_STATUS_PACKET_RECEIVED ≠ 0) :
    Ensures InTime watched (Drained next) (clearReasons v) fun _ => Rest next := by
  have hnonzero : v ≠ 0 := by
    intro h0
    rw [h0] at hv
    exact hv (by decide)
  unfold clearReasons
  rw [if_pos hnonzero]
  refine ensures_regWrite (stable_drained next) (stable_rest next) fun s hs => ?_
  rw [write_status s hs.bank, if_pos hv]
  refine ⟨rfl, hs.bank, hs.boundary, hs.inRing, [], ?_, fun h => absurd rfl h⟩
  show Chain s.1.mem s.1.curr next []
  rw [hs.current]
  exact .nil

/-- Other bits are cleared at any time. -/
theorem ensures_clear_others (next : UInt8) {v : UInt8}
    (hv : v &&& INTERRUPT_STATUS_PACKET_RECEIVED = 0) :
    Ensures InTime watched (Rest next) (clearReasons v) fun _ => Rest next := by
  unfold clearReasons
  by_cases hnonzero : v ≠ 0
  · rw [if_pos hnonzero]
    refine ensures_regWrite (stable_rest next) (stable_rest next) fun s hs => ?_
    rw [write_status s hs.bank, if_neg (not_not.mpr hv)]
    obtain ⟨ps, hchain, hset⟩ := hs.chain
    refine ⟨hs.note, hs.bank, hs.boundary, hs.inRing, ps, hchain, fun hps => ?_⟩
    rw [received_of_clear hv]
    exact hset hps
  · rw [if_neg hnonzero]
    exact ensures_done (stable_rest next) fun _ h => h

/-- **An interrupt keeps the invariant**, when packets arrive in time. -/
theorem ensures_handleIrq (turns fuel : Nat) (next : UInt8) :
    Ensures InTime watched (Rest next) (handleIrq turns fuel next) Rest := by
  unfold handleIrq
  refine ensures_bind (Q := fun _ => Rest next) ?_ fun reason => ?_
  · refine ensures_regRead (stable_rest next) (fun _ => stable_rest next) fun s hs => ?_
    have hcard : (watched (.inb INTERRUPT_STATUS_BANK0_RW) s).2 = s := by
      have hnote : noteOf (.inb INTERRUPT_STATUS_BANK0_RW) s = s.2 := by
        refine if_neg fun h => absurd h.1 ?_
        rw [hs.bank]
        decide
      show ((Nic.handle _ s.1).2, noteOf _ s) = _
      rw [hnote]
      rfl
    rw [hcard]
    exact hs
  by_cases hbit : reason &&& INTERRUPT_STATUS_PACKET_RECEIVED ≠ 0
  · rw [if_pos hbit]
    refine ensures_bind (ensures_handleReceived turns fuel next) fun next' => ?_
    exact ensures_bind (ensures_clear_received next' (by rwa [handledReasons_received]))
      fun _ => ensures_done (stable_rest next') fun _ h => h
  · -- the bit was not set, and is not written
    rw [if_neg hbit]
    refine ensures_bind (Q := Rest) (ensures_done (stable_rest next) fun _ h => h) fun next' => ?_
    exact ensures_bind (ensures_clear_others next'
      (by rw [handledReasons_received]; exact not_not.mp hbit))
      fun _ => ensures_done (stable_rest next') fun _ h => h

/-! ## §5. Runs of the driver. -/

/-- The states between interrupts, with arrivals as `env` has them: the driver starts with an empty
ring, and after that packets arrive and interrupts are handled. -/
inductive Reach (env : Nic × Bool → Nic × Bool → Prop) : UInt8 → Nic × Bool → Prop where
  | init (c : Nic) : c.bank = 0 → c.bnry = PAGE_RX → c.curr = PAGE_RX + 1 →
      Reach env (PAGE_RX + 1) (c, false)
  | arrival {next s s'} : Reach env next s → env s s' → Reach env next s'
  | irq {next s next' s'} (turns fuel : Nat) : Reach env next s →
      Runs env watched (handleIrq turns fuel next) s next' s' → Reach env next' s'

/-- When there are packets in the ring, the bit for received packets is set. -/
def Noticed (next : UInt8) (s : Nic × Bool) : Prop :=
  next ≠ s.1.curr → s.1.isr &&& INTERRUPT_STATUS_PACKET_RECEIVED ≠ 0

theorem Rest.noticed {s : Nic × Bool} (h : Rest next s) : Noticed next s := by
  obtain ⟨ps, hchain, hset⟩ := h.chain
  intro hne
  apply hset
  intro hps
  subst hps
  cases hchain
  exact hne rfl

theorem rest_of_reach {s : Nic × Bool} (h : Reach InTime next s) : Rest next s := by
  induction h with
  | init c hbank hbnry hcurr =>
      refine ⟨rfl, hbank, ?_, ?_, [], ?_, fun h => absurd rfl h⟩
      · show ahead c.bnry = _
        rw [hbnry]
        decide
      · show InRing c.curr
        rw [hcurr]
        exact ⟨by decide, by decide⟩
      · show Chain c.mem c.curr _ []
        rw [hcurr]
        exact .nil
  | arrival _ hmoved ih => exact stable_rest _ _ _ ih hmoved
  | irq turns fuel _ hrun ih => exact ensures_handleIrq turns fuel _ _ _ _ ih hrun

/-- **Packets in the ring are noticed**, in every state of every run in which no packet arrives
between the reading of the current page and the clearing of the bit. -/
theorem noticed_of_inTime (next : UInt8) (s : Nic × Bool) (h : Reach InTime next s) :
    Noticed next s := (rest_of_reach h).noticed

/-- The card with the packet `p` in the page behind the last one. -/
def Nic.append (c : Nic) (p : Packet) : Nic :=
  { c with
    mem := fun a =>
      if c.curr.toNat * 256 ≤ a ∧ a < c.curr.toNat * 256 + p.bytes.length then
        p.bytes.getD (a - c.curr.toNat * 256) 0
      else c.mem a
    curr := p.next
    isr := c.isr ||| INTERRUPT_STATUS_PACKET_RECEIVED }

/-- A packet that arrives in an empty ring. -/
theorem arrives_append {c : Nic} {p : Packet} (hstarted : c.started) (hempty : ahead c.bnry = c.curr)
    (hring : InRing c.curr) (hnext : InRing p.next) (hne : c.curr ≠ p.next)
    (hshort : p.bytes.length ≤ 256) : Arrives c (c.append p) p := by
  have hlen : p.bytes.length = 4 + p.payload.length := by
    unfold Packet.bytes
    rw [List.length_append]
    rfl
  refine ⟨hstarted, ?_, hnext, rfl, rfl, rfl⟩
  intro ps hchain
  rw [hempty] at hchain ⊢
  have hps : ps = [] := by
    cases hchain with
    | nil => rfl
    | cons hne' _ _ => exact absurd rfl hne'
  subst hps
  refine .cons hne ⟨hring, by omega, ?_⟩ .nil
  intro i hi
  rw [ringAddr_start hring (by omega)]
  unfold Nic.append
  dsimp only
  rw [if_pos (by omega), show c.curr.toNat * 256 + i - c.curr.toNat * 256 = i by omega,
    List.getD_eq_getElem?_getD, List.getElem?_eq_getElem hi]
  rfl

/-- The card after the start of the driver. -/
def freshNic : Nic where
  mem _ := 0
  command := 0x22
  isr := 0
  imr := 0x3f
  bnry := 0x50
  curr := 0x51
  rsar0 := 0
  rsar1 := 0
  rbcr0 := 0
  rbcr1 := 0
  crda := 0
  left := 0
  dumped := []

/-- A frame for the page behind `frame20`. -/
def nextFrame : Packet := ⟨1, 0x53, List.replicate 20 9⟩

theorem arrives_first : Arrives freshNic (freshNic.append frame20) frame20 :=
  arrives_append (by decide) (by decide) ⟨by decide, by decide⟩ ⟨by decide, by decide⟩ (by decide)
    (by decide)

/-- The second frame may arrive when the card is started and the first one has been taken. -/
def mayArrive (s : Nic × Bool) : Prop :=
  s.1.started ∧ ahead s.1.bnry = 0x52 ∧ s.1.curr = 0x52

instance (s : Nic × Bool) : Decidable (mayArrive s) := inferInstanceAs (Decidable (_ ∧ _ ∧ _))

/-- A frame, an interrupt that takes it, and the next frame, which is noticed. -/
theorem noticed_second : ∃ s, Reach InTime 0x52 s ∧ s.1.dumped = [frame20.payload] ∧
    s.1.curr = 0x53 ∧ Noticed 0x52 s := by
  have hfirst : Reach InTime 0x51 (freshNic.append frame20, false) :=
    .arrival (.init freshNic (by decide) rfl rfl) ⟨⟨⟨frame20, arrives_first⟩, rfl⟩, rfl⟩
  have hexec : (exec (scheduled watched fun _ s => s) (handleIrq 1 2 0x51)
      ((freshNic.append frame20, false), 0)).map
        (fun x => (x.1, x.2.1.2, decide (mayArrive x.2.1), x.2.1.1.dumped))
      = some (0x52, false, true, [frame20.payload]) := by decide +kernel
  obtain ⟨⟨next, s, n⟩, hrun, hvalues⟩ := Option.map_eq_some_iff.mp hexec
  simp only [Prod.mk.injEq, decide_eq_true_eq] at hvalues
  obtain ⟨rfl, hnote, ⟨hstarted, hbnry, hcurr⟩, hdumped⟩ := hvalues
  -- the interrupt is a run in which nothing arrives
  have hirq : Reach InTime 0x52 s := .irq 1 2 hfirst (runs_of_scheduled (fun _ _ => .refl) hrun)
  have harrives : Arrives s.1 (s.1.append nextFrame) nextFrame := by
    refine arrives_append hstarted (hbnry.trans hcurr.symm) ?_ ⟨by decide, by decide⟩ ?_ (by decide)
    · rw [hcurr]
      exact ⟨by decide, by decide⟩
    · rw [hcurr]
      decide
  have hreach : Reach InTime 0x52 (s.1.append nextFrame, s.2) :=
    .arrival hirq ⟨⟨⟨nextFrame, harrives⟩, rfl⟩, hnote⟩
  exact ⟨_, hreach, hdumped, rfl, noticed_of_inTime 0x52 _ hreach⟩

/-- It arrives as soon as it may. -/
def secondArrives (_ : Nat) (s : Nic × Bool) : Nic × Bool :=
  if mayArrive s then (s.1.append nextFrame, s.2) else s

theorem star_secondArrives (n : Nat) (s : Nic × Bool) :
    Relation.ReflTransGen Arrival s (secondArrives n s) := by
  unfold secondArrives
  by_cases h : mayArrive s
  · rw [if_pos h]
    obtain ⟨hstarted, hbnry, hcurr⟩ := h
    refine .single ⟨⟨nextFrame, arrives_append hstarted (hbnry.trans hcurr.symm) ?_ ?_ ?_ ?_⟩, rfl⟩
    · rw [hcurr]
      exact ⟨by decide, by decide⟩
    · exact ⟨by decide, by decide⟩
    · rw [hcurr]
      decide
    · decide
  · rw [if_neg h]

/-- **A packet is lost** that arrives while the one before it is dumped: it is in the ring, and the
bit is not set. -/
theorem packet_not_noticed : ¬ ∀ next s, Reach Arrival next s → Noticed next s := by
  intro hall
  have hfirst : Reach Arrival 0x51 (freshNic.append frame20, false) :=
    .arrival (.init freshNic (by decide) rfl rfl) ⟨⟨frame20, arrives_first⟩, rfl⟩
  have hexec : (exec (scheduled watched secondArrives) (handleIrq 1 2 0x51)
      ((freshNic.append frame20, false), 0)).map
        (fun x => (x.1, x.2.1.1.curr, x.2.1.1.isr &&& INTERRUPT_STATUS_PACKET_RECEIVED))
      = some (0x52, 0x53, 0) := by decide +kernel
  obtain ⟨⟨next, s, n⟩, hrun, hvalues⟩ := Option.map_eq_some_iff.mp hexec
  have hreach := Reach.irq 1 2 hfirst (runs_of_scheduled star_secondArrives hrun)
  obtain ⟨hnext, hcurr, hisr⟩ : next = 0x52 ∧ s.1.curr = 0x53 ∧
      s.1.isr &&& INTERRUPT_STATUS_PACKET_RECEIVED = 0 := by
    simpa using hvalues
  refine hall next s hreach ?_ hisr
  rw [hnext, hcurr]
  decide

end Metta.Ne2k
