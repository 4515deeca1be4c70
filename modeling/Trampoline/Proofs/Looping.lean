import Trampoline.Proofs.Poses
import Trampoline.Proofs.StackLimit

/-!
A loop by tail calls runs in constant room.

The loop that sums `1 … n` keeps its counter and its sum in one frame, which each round refills: the
stack is as deep after a million rounds as after one, and the heap is not touched. Each round takes
two steps, one that tests the counter and one that counts down.
-/

namespace Trampoline.Demo

open Machine

variable {w : Width}

/-- The test of a counter, which is a small integer. -/
theorem takes_test {m : Machine w} {q : Pose w} {i : Int} (hi : w.minInt ≤ i ∧ i ≤ w.maxInt)
    (hslot : q.locals[0]? = some (.wrapInt i)) (hsmall : q.beneath.length < sizeRange)
    (done step : Label) :
    m.Takes (SumLoop.test done step) q (if i ≤ 0 then done else step) q := by
  have hzero := w.digit_range (n := 0) (by decide)
  have hbranch := takes_branch (m := m) (q := q) (decide (i ≤ 0)) done step
  simp only [decide_eq_true_eq] at hbranch
  exact (takes_slot hslot hsmall).bind <| (takes_int hzero).bind <|
    (takes_lift (Fixnum.le_wrapInt hi hzero)).bind hbranch

namespace SumLoop

def table (n : Int) : Program (Code w) :=
  { slots := #[{ name := "program_end" }, { name := "apply_pending" },
      ⟨"main", 0, some (start n ⟨3⟩)⟩, ⟨"loop", 0, some (test ⟨5⟩ ⟨4⟩)⟩,
      ⟨"loop_step", 0, some (step ⟨3⟩)⟩, ⟨"loop_done", 0, some done⟩]
    entry := ⟨2⟩
    names := .builtin }

theorem program_declare (n : Int) (journal : Journal w) :
    ∃ journal', (declare n).program journal = .ok (table n, journal') := by
  have hd : (declare n : Declare w Label) .empty = .ok ⟨2⟩ ⟨(table n).slots, .builtin, 8⟩ := rfl
  exact Declare.program_of_bound hd rfl rfl journal

def looping (h : Heap w) (i sum : Int) (steps : Nat) : Pose w :=
  { heap := h, beneath := [.wrapInt 0, .wrapInt 0], locals := [.wrapInt i, .wrapInt sum]
    result := .unitWord, mark := 4, steps := steps }

section

variable {m : Machine w} {h : Heap w} {n i sum : Int} {steps : Nat}

theorem leads_start (hroom : 4 ≤ m.maxStackWords) (hn : w.minInt ≤ n ∧ n ≤ w.maxInt) :
    Leads m (table n) ⟨2⟩ (entryPose h) ⟨3⟩ (looping h n 0 1) :=
  leads_of_code rfl rfl rfl <| (takes_int hn).bind <| (takes_int (w.digit_range (by decide))).bind <|
    takes_tailCall hroom

/-- A round counts down and adds to the sum. -/
theorem leads_round (hroom : 4 ≤ m.maxStackWords) (hi : 0 < i ∧ i ≤ w.maxInt) :
    Leads m (table n) ⟨3⟩ (looping h i sum steps) ⟨3⟩
      (looping h (i - 1) (sum + i) (steps + 2)) := by
  have hrange : w.minInt ≤ i ∧ i ≤ w.maxInt := ⟨(w.digit_range (by decide)).1.trans hi.1.le, hi.2⟩
  have htest := takes_test (m := m) (q := (looping h i sum steps).tick) hrange rfl
    (show 2 < sizeRange by decide) ⟨5⟩ ⟨4⟩
  rw [if_neg (Int.not_le.mpr hi.1)] at htest
  refine (leads_of_code rfl rfl rfl htest).trans (leads_of_code rfl rfl rfl ?_)
  exact (takes_slot rfl (show 2 < sizeRange by decide)).bind <|
    (takes_slot rfl (show 3 < sizeRange by decide)).bind <|
    (takes_int (w.digit_range (by decide))).bind <|
    (takes_lift (Fixnum.sub_wrapInt i 1)).bind <| (takes_lift (Fixnum.add_wrapInt sum i)).bind <|
    takes_tailCall hroom

/-- When the counter is used up, the sum is returned. -/
theorem leads_done (hi : w.minInt ≤ i ∧ i ≤ 0) :
    Leads m (table n) ⟨3⟩ (looping h i sum steps) .programEnd
      { heap := h, beneath := [], locals := [], result := .wrapInt sum, mark := 4
        steps := steps + 2 } := by
  have hrange : w.minInt ≤ i ∧ i ≤ w.maxInt := ⟨hi.1, hi.2.trans (w.digit_range (by decide)).2⟩
  have htest := takes_test (m := m) (q := (looping h i sum steps).tick) hrange rfl
    (show 2 < sizeRange by decide) ⟨5⟩ ⟨4⟩
  rw [if_pos hi.2] at htest
  refine (leads_of_code rfl rfl rfl htest).trans (leads_of_code rfl rfl rfl ?_)
  exact (takes_slot rfl (show 3 < sizeRange by decide)).bind <|
    takes_ret_end rfl

/-- The counter goes down to zero and the sum up, two steps a round. -/
theorem leads_rounds (hroom : 4 ≤ m.maxStackWords) (k : Nat) (hk : (k : Int) ≤ w.maxInt) :
    Leads m (table n) ⟨3⟩ (looping h k sum steps) ⟨3⟩
      (looping h 0 (sum + (k * (k + 1) / 2 : Nat)) (steps + 2 * k)) := by
  induction k generalizing sum steps with
  | zero => simpa using Leads.refl (m := m) (p := table n)
  | succ k ih =>
    have hround : Leads m (table n) ⟨3⟩ (looping h (k + 1 : Nat) sum steps) ⟨3⟩
        (looping h k (sum + (k + 1 : Nat)) (steps + 2)) := by
      have hcount : ((k + 1 : Nat) : Int) - 1 = k := by omega
      rw [← hcount]
      exact leads_round hroom ⟨by omega, hk⟩
    have hsum : sum + ((k + 1) * (k + 1 + 1) / 2 : Nat) =
        sum + (k + 1 : Nat) + (k * (k + 1) / 2 : Nat) := by
      rw [half_mul_succ]
      omega
    rw [hsum, show steps + 2 * (k + 1) = steps + 2 + 2 * k by omega]
    exact hround.trans (ih (by omega))

/-- The whole loop, also when there is nothing to count. -/
theorem leads_loop (hroom : 4 ≤ m.maxStackWords) (hn : w.minInt ≤ n ∧ n ≤ w.maxInt) :
    Leads m (table n) ⟨2⟩ (entryPose h) .programEnd
      { heap := h, beneath := [], locals := []
        result := .wrapInt (n.toNat * (n.toNat + 1) / 2 : Nat), mark := 4
        steps := 2 * n.toNat + 3 } := by
  refine (leads_start hroom hn).trans ?_
  obtain hneg | ⟨k, rfl⟩ : n < 0 ∨ ∃ k : Nat, n = k :=
    (Int.lt_or_le n 0).imp_right Int.eq_ofNat_of_zero_le
  · rw [Int.toNat_of_nonpos hneg.le]
    exact leads_done ⟨hn.1, hneg.le⟩
  · rw [Int.toNat_natCast]
    rw [← zero_add ((k * (k + 1) / 2 : Nat) : Int), show 2 * k + 3 = 1 + 2 * k + 2 by omega]
    exact (leads_rounds hroom k hn.2).trans (leads_done ⟨(w.digit_range (by decide)).1, le_refl 0⟩)

end

variable {s : MachineSettings} {n : Int}

/-- The loop returns the sum, wrapped around to a small integer, after two steps for each round,
with four words of stack and no words of heap. -/
theorem sumLoop_constant_room (hvalid : s.validate w = .ok ()) (hn : w.minInt ≤ n ∧ n ≤ w.maxInt)
    (journal : Journal w) :
    ∃ p journal', (declare n).program journal = .ok (p, journal') ∧
      (∀ (sink : Sink w) (journal : Journal w),
        if s.heap.initialWords ≤ w.maxSpaceWords then ∃ m, create s sink journal = .ok m
        else create s sink journal = .error (.bounds, journal.recordMaking s.heap)) ∧
      ∀ m, Served s m → ∃ v m', Settles m p (.ok v m') ∧
        v.Represents (n.toNat * (n.toNat + 1) / 2 : Nat) ∧ m'.steps = 2 * n.toNat + 3 ∧
        m'.stack.highWater = 4 ∧ m'.heap = m.heap := by
  obtain ⟨journal', hbuilt⟩ := program_declare n journal
  refine ⟨table n, journal', hbuilt, create_of_valid hvalid, fun m hm => ?_⟩
  obtain ⟨_, hroom, _⟩ := hm.stack
  have hcount : 2 * n.toNat + 3 < sizeRange := by
    cases w <;> simp only [Width.maxInt] at hn <;> simp only [sizeRange] <;> omega
  obtain ⟨m', hsettles, hheap, hmark, hsteps⟩ :=
    (leads_loop (m := m.hosting (table n)) (le_trans (by decide) hroom) hn).settles
      rfl (le_trans (by decide) hroom) hcount rfl rfl
  exact ⟨_, m', hsettles, Word.represents_wrapInt _, hsteps, hmark, hheap⟩

/-- A billion billion rounds on the least stack. -/
theorem sumLoop_constant_room_longest :
    snug.validate .bits64 = .ok () ∧
      ∃ p journal', (declare (2 ^ 61 - 1)).program {} = .ok (p, journal') ∧
        ∃ v m', Settles (blank snug) p (.ok v m') ∧
          v.Represents ((2 ^ 61 - 1) * (2 ^ 61 - 1 + 1) / 2 : Nat) ∧
          m'.steps = 2 * (2 ^ 61 - 1) + 3 ∧ m'.stack.highWater = 4 ∧
          m'.heap = (blank snug : Machine .bits64).heap := by
  have hvalid : snug.validate .bits64 = .ok () := by decide +kernel
  have hserved : Served snug (blank snug : Machine .bits64) :=
    .fresh (create_blank hvalid (by decide))
  obtain ⟨p, journal', hp, _, hrun⟩ :=
    sumLoop_constant_room (n := 2 ^ 61 - 1) hvalid (by decide) ({} : Journal .bits64)
  exact ⟨hvalid, p, journal', hp, hrun _ hserved⟩

/-- With valid settings there may be no machine that the loop could run on. -/
theorem sumLoop_overlarge_traps :
    overlarge.validate .bits64 = .ok () ∧
      (∃ p journal', (declare 3 : Declare .bits64 Label).program {} = .ok (p, journal')) ∧
      ∀ (sink : Sink .bits64) (journal : Journal .bits64),
        create overlarge sink journal = .error (.bounds, journal.recordMaking overlarge.heap) :=
  ⟨validate_overlarge, ⟨_, program_declare 3 {}⟩, create_overlarge⟩

end SumLoop

end Trampoline.Demo
