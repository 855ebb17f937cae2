/-
  Metta.Debugger.Backtrace — the frames of the stack on the console:
  kernel/arch/x86/debugger.cpp, and `dump_regs` of nucleus/x86/init_nucleus.cpp.

  A base pointer is where the one of the caller is kept, with the return address above it.  The
  debugger follows the base pointers and prints the addresses, up to a number of frames.

    • `backtrace`, `backtraceAt` — one step, and a return address by its number,
    • `printBacktrace`, `dumpRegs` — what goes to the console,
    • `frames` — the addresses of the frames,
    • `printBacktrace_eq` — they are what is printed, when there is a bound,
    • `Stacked`, `frames_stacked` — for a stack that is in memory,
    • `backtraces_agree` — what is printed and what is counted is the same.
-/
import Mathlib.Data.List.TakeWhile
import Metta.DefaultConsole.Port
import Metta.Machine.Memory

namespace Metta.Debugger

open Metta.Machine Metta.DefaultConsole

/-! ## §1. The code. -/

/-- `backtrace(base_pointer, return_address)`: the next base pointer, and the address above it. -/
def backtrace (m : Memory) (basePointer : Nat) : Nat × Nat :=
  (m.load32 basePointer, m.load32 (add32 basePointer 4))

/-- The loop of `backtrace(n)`.  Nothing is returned when it still goes on after `fuel` turns. -/
def backtraceFrom (m : Memory) (n : Int) : Nat → Nat → Nat → Nat → Option Nat
  | 0, _, _, _ => none
  | fuel + 1, i, basePointer, eip =>
      if basePointer ≠ 0 ∧ eip ≠ 0 then
        let next := backtrace m basePointer
        if (i : Int) = n then some next.2 else backtraceFrom m n fuel (i + 1) next.1 next.2
      else some 0

/-- `backtrace(n)`, from the base pointer that is read. -/
def backtraceAt (m : Memory) (ebp : Nat) (n : Int) (fuel : Nat) : Option Nat :=
  backtraceFrom m n fuel 0 ebp 1

/-- The line for an address; there is none for the one that only starts the loop. -/
def printFrame (eip : Nat) : List Op :=
  if 1 < eip then
    [.printStr (ascii "| "), .printHex (BitVec.ofNat 32 eip), .printChar eol]
  else []

/-- The loop of `print_backtrace`. -/
def printFrames (m : Memory) (n : Int) : Nat → Nat → Nat → Nat → Option (List Op)
  | 0, _, _, _ => none
  | fuel + 1, i, basePointer, eip =>
      if basePointer ≠ 0 ∧ eip ≠ 0 ∧ ((n ≠ 0 ∧ (i : Int) < n) ∨ n = 0) then
        let next := backtrace m basePointer
        (printFrames m n fuel (i + 1) next.1 next.2).map fun ops => printFrame eip ++ ops
      else some []

/-- What is printed for the number of frames. -/
def printCount (n : BitVec 32) : Op := if n = 0 then .printStr (ascii "all") else .printInt n

/-- `print_backtrace`; `ebp` is the base pointer that it reads when it gets none. -/
def printBacktrace (m : Memory) (ebp basePointer eip : Nat) (n : BitVec 32) (fuel : Nat) :
    Option (List Op) :=
  let eip := if eip = 0 then 1 else eip
  let basePointer := if basePointer = 0 then ebp else basePointer
  (printFrames m n.toInt fuel 0 basePointer eip).map fun ops =>
    [.setColor .green, .printStr (ascii "*** Backtrace *** Tracing "), printCount n,
      .printStr (ascii " stack frames:"), .printChar eol] ++ ops

/-- `registers_t`. -/
structure Registers where
  ds : BitVec 32
  edi : BitVec 32
  esi : BitVec 32
  ebp : BitVec 32
  esp : BitVec 32
  ebx : BitVec 32
  edx : BitVec 32
  ecx : BitVec 32
  eax : BitVec 32
  intNo : BitVec 32
  errCode : BitVec 32
  eip : BitVec 32
  cs : BitVec 32
  eflags : BitVec 32
  useresp : BitVec 32
  ss : BitVec 32

/-- The names of the bits, from the highest. -/
def eflagsBits : List String :=
  ["<31>", "<30>", "<29>", "<28>", "<27>", "<26>", "<25>", "<24>",
    "<23>", "<22>", "ID", "VIP", "VIF", "AC", "VM", "RF",
    "<15>", "NT", "IOPL1", "IOPL0", "OF", "DF", "IF", "TF",
    "SF", "ZF", "<5>", "AF", "<3>", "PF", "<1>", "CF"]

/-- The line that a dump begins and ends with. -/
def rule : Op := .printStr (List.replicate 97 '='.toUInt8)

/-- Words behind their names. -/
def printWords (words : List (String × BitVec 32)) : List Op :=
  words.flatMap fun word => [.printStr (ascii word.1), .printHex word.2]

/-- The names of the bits that are set. -/
def printFlags (eflags : BitVec 32) : List Op :=
  (eflagsBits.zipIdx).flatMap fun bit =>
    if eflags.getLsbD (31 - bit.2) then [.printStr (ascii " "), .printStr (ascii bit.1)] else []

/-- `dump_regs`. -/
def dumpRegs (m : Memory) (ebp : Nat) (regs : Registers) (fuel : Nat) : Option (List Op) :=
  (printBacktrace m ebp regs.ebp.toNat regs.eip.toNat 20 fuel).map fun ops =>
    [.printChar eol, .setColor .red] ++ [rule, .printChar eol] ++
    (printWords [("Interrupt ", regs.intNo), (", error code ", regs.errCode)] ++ [.printChar eol]) ++
    (printWords [("     EAX:", regs.eax), (" EBX:", regs.ebx), (" ECX:", regs.ecx),
      (" EDX:", regs.edx)] ++ [.printChar eol]) ++
    (printWords [("     ESI:", regs.esi), (" EDI:", regs.edi), (" EBP:", regs.ebp),
      (" ESP:", regs.esp)] ++ [.printChar eol]) ++
    (printWords [("user ESP:", regs.useresp), (" CS:", regs.cs), (" DS:", regs.ds),
      (" SS:", regs.ss)] ++ [.printChar eol]) ++
    (printWords [("     EIP:", regs.eip), (" EFLAGS:", regs.eflags)] ++ printFlags regs.eflags ++
      [.printChar eol]) ++
    ops ++ [rule, .printChar eol]

/-! ## §2. The addresses of the frames. -/

/-- The addresses that at most `k` turns come to, the one to start with first. -/
def frames (m : Memory) : Nat → Nat → Nat → List Nat
  | 0, _, _ => []
  | k + 1, basePointer, eip =>
      if basePointer = 0 ∨ eip = 0 then []
      else eip :: frames m k (m.load32 basePointer) (m.load32 (add32 basePointer 4))

/-- The addresses that are printed for a bound. -/
def traced (m : Memory) (ebp basePointer eip k : Nat) : List Nat :=
  (frames m k (if basePointer = 0 then ebp else basePointer) (if eip = 0 then 1 else eip)).filter
    fun eip => 1 < eip

variable {m : Memory}

/-- A loop with a bound ends, and prints the frames that are left. -/
theorem printFrames_eq {n k fuel i : Nat} (hn : n ≠ 0) (hk : i + k = n) (hfuel : k < fuel)
    (basePointer eip : Nat) :
    printFrames m n fuel i basePointer eip
      = some ((frames m k basePointer eip).flatMap printFrame) := by
  induction k generalizing fuel i basePointer eip with
  | zero =>
      obtain ⟨fuel, rfl⟩ := Nat.exists_eq_add_of_lt hfuel
      have hstop : ¬ (basePointer ≠ 0 ∧ eip ≠ 0 ∧
          (((n : Int) ≠ 0 ∧ (i : Int) < n) ∨ (n : Int) = 0)) := by omega
      unfold printFrames
      rw [if_neg hstop]
      rfl
  | succ k ih =>
      obtain ⟨fuel, rfl⟩ : ∃ f, fuel = f + 1 := ⟨fuel - 1, by omega⟩
      unfold printFrames frames
      by_cases hend : basePointer = 0 ∨ eip = 0
      · rw [if_pos hend, if_neg (by omega)]
        rfl
      · rw [if_neg hend, if_pos (by omega)]
        dsimp only [backtrace]
        rw [ih (by omega) (by omega)]
        rfl

/-- The frames without a line are the ones at `1`. -/
theorem flatMap_printFrame (eips : List Nat) :
    eips.flatMap printFrame = (eips.filter fun eip => 1 < eip).flatMap printFrame := by
  induction eips with
  | nil => rfl
  | cons eip eips ih =>
      rw [List.flatMap_cons, ih]
      by_cases hlt : 1 < eip
      · rw [List.filter_cons_of_pos (by simpa using hlt)]
        rfl
      · rw [List.filter_cons_of_neg (by simpa using hlt)]
        unfold printFrame
        rw [if_neg hlt]
        rfl

/-- **With a bound, the backtrace ends**, after as many turns at most, and prints the frames. -/
theorem printBacktrace_eq {n : BitVec 32} (hn : 0 < n.toInt) {fuel : Nat}
    (hfuel : n.toInt.toNat < fuel) (ebp basePointer eip : Nat) :
    printBacktrace m ebp basePointer eip n fuel
      = some ([.setColor .green, .printStr (ascii "*** Backtrace *** Tracing "), .printInt n,
          .printStr (ascii " stack frames:"), .printChar eol] ++
        (traced m ebp basePointer eip n.toInt.toNat).flatMap printFrame) := by
  have hcast : ((n.toInt.toNat : Nat) : Int) = n.toInt := Int.toNat_of_nonneg (le_of_lt hn)
  have hne : n ≠ 0 := by
    intro h0
    rw [h0] at hn
    exact absurd hn (by decide)
  have hframes := printFrames_eq (m := m) (n := n.toInt.toNat) (i := 0) (by omega)
    (Nat.zero_add _) hfuel (if basePointer = 0 then ebp else basePointer)
    (if eip = 0 then 1 else eip)
  rw [hcast] at hframes
  unfold printBacktrace traced printCount
  dsimp only
  rw [hframes, if_neg hne, flatMap_printFrame]
  rfl

/-! ## §3. A stack in memory. -/

/-- From a base pointer on there are frames with these return addresses; the last one has no base
pointer of a caller. -/
def Stacked (m : Memory) : Nat → List Nat → Prop
  | basePointer, [] => basePointer = 0
  | basePointer, ret :: rets =>
      basePointer ≠ 0 ∧ m.load32 (add32 basePointer 4) = ret ∧ Stacked m (m.load32 basePointer) rets

/-- The frames of a stack: the return address of the last one is not come to. -/
theorem frames_stacked {rets : List Nat} {basePointer eip : Nat} (h : Stacked m basePointer rets)
    (k : Nat) :
    frames m k basePointer eip
      = (((eip :: rets).dropLast).takeWhile fun eip => eip ≠ 0).take k := by
  induction rets generalizing basePointer eip k with
  | nil =>
      cases k with
      | zero => rfl
      | succ k =>
          unfold frames
          rw [if_pos (.inl h)]
          rfl
  | cons ret rets ih =>
      cases k with
      | zero => rfl
      | succ k =>
          obtain ⟨hne, hret, hrest⟩ := h
          unfold frames
          rw [List.dropLast_cons_of_ne_nil (List.cons_ne_nil _ _)]
          by_cases heip : eip = 0
          · rw [if_pos (.inr heip), heip]
            rfl
          · rw [if_neg (by omega), List.takeWhile_cons_of_pos (by simpa using heip), hret,
              ih hrest]
            rfl

/-- The loop that counts the frames, on a stack. -/
theorem backtraceFrom_stacked {rets : List Nat} {n i fuel basePointer eip : Nat}
    (h : Stacked m basePointer rets) (hrets : ∀ ret ∈ rets, ret ≠ 0) (heip : eip ≠ 0) (hi : i ≤ n)
    (hfuel : rets.length < fuel) :
    backtraceFrom m n fuel i basePointer eip = some (rets.getD (n - i) 0) := by
  induction rets generalizing i fuel basePointer eip with
  | nil =>
      obtain ⟨fuel, rfl⟩ := Nat.exists_eq_add_of_lt hfuel
      have hend : basePointer = 0 := h
      unfold backtraceFrom
      rw [if_neg (by omega)]
      rfl
  | cons ret rets ih =>
      obtain ⟨fuel, rfl⟩ : ∃ f, fuel = f + 1 := ⟨fuel - 1, by omega⟩
      obtain ⟨hne, hret, hrest⟩ := h
      unfold backtraceFrom
      rw [if_pos ⟨hne, heip⟩]
      dsimp only [backtrace]
      by_cases hlast : i = n
      · rw [if_pos (by omega), hret, hlast, Nat.sub_self]
        rfl
      · rw [if_neg (by omega), hret]
        have hlen : rets.length < fuel := by
          rw [List.length_cons] at hfuel
          omega
        rw [ih hrest (fun r hr => hrets r (List.mem_cons_of_mem _ hr))
          (hrets ret List.mem_cons_self) (by omega) hlen]
        have hsub : n - i = n - (i + 1) + 1 := by omega
        rw [hsub]
        rfl

/-- **The two backtraces agree** on a stack: the one that counts has the return address of each
frame, and the one that prints has them in their order, up to the number of frames, but for the
address that the outermost frame returns to. -/
theorem backtraces_agree {rets : List Nat} {ebp : Nat} (h : Stacked m ebp rets)
    (hrets : ∀ ret ∈ rets, 1 < ret) :
    (∀ n fuel : Nat, rets.length < fuel → backtraceAt m ebp n fuel = some (rets.getD n 0)) ∧
      ∀ (n : BitVec 32) (fuel : Nat), 0 < n.toInt → n.toInt.toNat < fuel →
        printBacktrace m ebp 0 0 n fuel
          = some ([.setColor .green, .printStr (ascii "*** Backtrace *** Tracing "), .printInt n,
              .printStr (ascii " stack frames:"), .printChar eol] ++
            (rets.dropLast.take (n.toInt.toNat - 1)).flatMap printFrame) := by
  constructor
  · intro n fuel hfuel
    exact backtraceFrom_stacked h (fun ret hret => by have := hrets ret hret; omega) (by decide)
      (Nat.zero_le _) hfuel
  · intro n fuel hn hfuel
    rw [printBacktrace_eq hn hfuel]
    -- the address that the loop starts from is not printed, and none of the others is zero
    have htraced : traced m ebp 0 0 n.toInt.toNat = rets.dropLast.take (n.toInt.toNat - 1) := by
      obtain ⟨k, hk⟩ : ∃ k, n.toInt.toNat = k + 1 := ⟨n.toInt.toNat - 1, by omega⟩
      unfold traced
      rw [if_pos rfl, if_pos rfl, frames_stacked h, hk, Nat.add_sub_cancel]
      cases rets with
      | nil => rw [List.dropLast_nil, List.take_nil, List.dropLast_singleton, List.takeWhile_nil,
          List.take_nil, List.filter_nil]
      | cons ret rets =>
          rw [List.dropLast_cons_of_ne_nil (List.cons_ne_nil _ _),
            List.takeWhile_cons_of_pos (by decide), List.take_succ_cons,
            List.filter_cons_of_neg (by decide)]
          have hmem : ∀ x ∈ (ret :: rets).dropLast, 1 < x :=
            fun x hx => hrets x (List.dropLast_subset _ hx)
          have hnonzero : ((ret :: rets).dropLast).takeWhile (fun eip => eip ≠ 0)
              = (ret :: rets).dropLast := by
            apply List.takeWhile_eq_self_iff.mpr
            intro x hx
            have hlt := hmem x hx
            simp only [decide_eq_true_eq]
            omega
          rw [hnonzero]
          apply List.filter_eq_self.mpr
          intro x hx
          simpa using hmem x (List.mem_of_mem_take hx)
    rw [htraced]

/-- A stack of two frames: the inner one returns to `0x1234`, and the outer one to `0x5678`. -/
def twoFrames : Memory :=
  ((((⟨fun _ => 0, []⟩ : Memory).store32 0x100 0x200).store32 0x104 0x1234).store32 0x200 0).store32
    0x204 0x5678

theorem stacked_twoFrames : Stacked twoFrames 0x100 [0x1234, 0x5678] := by
  refine ⟨by decide, by decide +kernel, ?_⟩
  rw [show twoFrames.load32 0x100 = 0x200 by decide +kernel]
  refine ⟨by decide, by decide +kernel, ?_⟩
  show twoFrames.load32 0x200 = 0
  decide +kernel

theorem backtraces_agree_twoFrames :
    backtraceAt twoFrames 0x100 1 3 = some 0x5678 ∧
      printBacktrace twoFrames 0x100 0 0 20 21
        = some [.setColor .green, .printStr (ascii "*** Backtrace *** Tracing "), .printInt 20,
            .printStr (ascii " stack frames:"), .printChar eol,
            .printStr (ascii "| "), .printHex 0x1234, .printChar eol] := by
  have hagree := backtraces_agree stacked_twoFrames (by decide)
  exact ⟨hagree.1 1 3 (by decide), hagree.2 20 21 (by decide) (by decide)⟩

end Metta.Debugger
