import Mathlib.Data.Nat.Fib.Basic
import Trampoline.Proofs.Poses
import Trampoline.Proofs.StackLimit

/-!
A double recursion runs up to its exact need of stack.

A call for the `x`-th Fibonacci number opens a frame of three words. While its first recursive call
runs, these three words lie beneath; while the second one runs, the first result is kept on them as
a fourth. So a call needs three words for `x < 2`, and `3x + 1` words otherwise. Value and need are
proved together, by induction on `x`, for a call on top of any caller: with enough room the number
is delivered to the continuation and the caller's frame stands as before, and with less the run
comes to a call that does not fit.
-/

namespace Trampoline.Demo.Fib

open Machine

variable {w : Width}

def table (n : Int) : Program (Code w) :=
  { slots := #[{ name := "program_end" }, { name := "apply_pending" },
      ⟨"main", 0, some (start n ⟨3⟩)⟩, ⟨"fib", 0, some (test ⟨4⟩ ⟨5⟩)⟩,
      ⟨"fib_small", 0, some small⟩, ⟨"fib_big", 0, some (big ⟨3⟩ ⟨6⟩)⟩,
      ⟨"fib_k1", 0, some (first ⟨3⟩ ⟨7⟩)⟩, ⟨"fib_k2", 0, some second⟩]
    entry := ⟨2⟩
    names := Names.builtin.enter 8 (.function "fib") }

theorem program_declare (n : Int) (journal : Journal w) :
    ∃ journal', (declare n).program journal = .ok (table n, journal') := by
  have hd : (declare n : Declare w Label) .empty =
      .ok ⟨2⟩ ⟨(table n).slots, (table n : Program (Code w)).names, 9⟩ := by
    cases w <;> rfl
  exact Declare.program_of_bound hd rfl rfl journal

/-! ### The code of the labels -/

section

variable {m : Machine w} {x y z : Int} {q : Pose w} {k l : Label} {a b : Word w}

theorem takes_test (hx : w.minInt ≤ x ∧ x ≤ w.maxInt) (hslot : q.locals[0]? = some (.wrapInt x))
    (hsize : q.beneath.length + 1 < sizeRange) :
    m.Takes (test k l) q (if x < 2 then k else l) q := by
  have htwo := w.digit_range (n := 2) (by decide)
  have hbranch := takes_branch (m := m) (q := q) (decide (x < 2)) k l
  simp only [decide_eq_true_eq] at hbranch
  exact (takes_slot hslot (Nat.lt_of_succ_lt hsize)).bind <| (takes_int htwo).bind <|
    (takes_lift (Fixnum.lt_wrapInt hx htwo)).bind hbranch

/-- An argument that is lowered by a digit. -/
theorem takes_lower (hslot : q.locals[0]? = some (.wrapInt x))
    (hsize : q.beneath.length + 1 < sizeRange) {d : Int} (hd : 0 ≤ d ∧ d ≤ 9) {β : Type}
    {f : Word w → Op w β} {r : β} {q' : Pose w} (hf : m.Takes (f (.wrapInt (x - d))) q r q') :
    m.Takes (do f (← Fixnum.sub (← slot 0) (← int d))) q r q' :=
  (takes_slot hslot (Nat.lt_of_succ_lt hsize)).bind <| (takes_int (w.digit_range hd)).bind <|
    (takes_lift (Fixnum.sub_wrapInt x d)).bind hf

theorem stops_lower (hslot : q.locals[0]? = some (.wrapInt x))
    (hsize : q.beneath.length + 1 < sizeRange) {d : Int} (hd : 0 ≤ d ∧ d ≤ 9) {β : Type}
    {f : Word w → Op w β} {e : Fault w RuntimeError} (hf : m.Stops (f (.wrapInt (x - d))) q e) :
    m.Stops (do f (← Fixnum.sub (← slot 0) (← int d))) q e :=
  (takes_slot hslot (Nat.lt_of_succ_lt hsize)).bind_stops <|
    (takes_int (w.digit_range hd)).bind_stops <|
    (takes_lift (Fixnum.sub_wrapInt x d)).bind_stops hf

/-- The second result is added to the first, and the frame is left. -/
theorem takes_second {c : Pose w} (ha : Word.codeAddress k.id = .ok a)
    (hb : Word.size c.beneath.length = .ok b) (hc : (c.beneath.length : Int) ≤ w.maxInt)
    (hbeneath : q.beneath = c.slots ++ [a, b]) (hslot : q.locals[1]? = some (.wrapInt y))
    (hsize : q.beneath.length + 1 < sizeRange) (hresult : q.result = .wrapInt z) :
    m.Takes second q k
      { q with beneath := c.beneath, locals := c.locals, result := .wrapInt (y + z) } := by
  have hadd : Fixnum.add (.wrapInt y) q.result = .ok (.wrapInt (y + z)) := by
    rw [hresult]
    exact Fixnum.add_wrapInt y z
  exact (takes_slot hslot hsize).bind <| takes_lastResult.bind <| (takes_lift hadd).bind <|
    takes_ret ha hb hc hbeneath

end

/-! ### Calls -/

/-- Words of stack that a call needs, its frame included. -/
def need (x : Nat) : Nat := if x < 2 then 3 else 3 * x + 1

theorem need_add_two (x : Nat) : need (x + 2) = max (3 + need (x + 1)) (4 + need x) := by
  simp only [need]
  split_ifs <;> omega

theorem three_le_need (x : Nat) : 3 ≤ need x := by
  unfold need
  split <;> omega

def cost (x : Nat) : Nat := 6 * Nat.fib (x + 1) - 4

theorem cost_add_two (x : Nat) : cost (x + 2) = cost (x + 1) + cost x + 4 := by
  have hpos := Nat.fib_pos.mpr (show 0 < x + 1 by omega)
  have hle := Nat.fib_le_fib_succ (n := x + 1)
  rw [cost, cost, cost, show x + 2 + 1 = x + 1 + 2 by omega, Nat.fib_add_two (n := x + 1)]
  omega

theorem one_add_cost (x : Nat) : 1 + cost x = 6 * Nat.fib (x + 1) - 3 := by
  have hpos := Nat.fib_pos.mpr (show 0 < x + 1 by omega)
  rw [cost]
  omega

/-- A frame with one argument is on top of a caller, and returns to it at `k`. -/
structure Called (c q : Pose w) (k : Label) (x : Int) : Prop where
  header : ∃ a b, Word.codeAddress k.id = .ok a ∧ Word.size c.beneath.length = .ok b ∧
    q.beneath = c.slots ++ [a, b]
  argument : q.locals = [.wrapInt x]
  mark : c.slots.length + 3 ≤ q.mark

def delivered (c q : Pose w) (v : Word w) (mark steps : Nat) : Pose w :=
  { heap := q.heap, beneath := c.beneath, locals := c.locals, result := v, mark := mark
    steps := steps }

section

variable {m : Machine w} {n x y z : Int} {c q : Pose w} {k : Label}

theorem Called.slots_length (C : Called c q k x) : q.slots.length = c.slots.length + 3 := by
  obtain ⟨a, b, _, _, hbeneath⟩ := C.header
  rw [Pose.slots, hbeneath, C.argument]
  simp

theorem Called.slot (C : Called c q k x) : q.tick.locals[0]? = some (.wrapInt x) := by
  change q.locals[0]? = _
  rw [C.argument]
  rfl

theorem beneath_lt (hsmall : (q.slots.length : Int) ≤ w.maxInt) (hlocals : q.locals ≠ []) :
    (q.beneath.length : Int) ≤ w.maxInt ∧ q.beneath.length + 1 < sizeRange := by
  have hlt := w.maxInt_lt_sizeRange
  have hpos := List.length_pos_iff.mpr hlocals
  rw [Pose.slots, List.length_append] at hsmall
  omega

theorem Called.beneath_lt (C : Called c q k x) (hsmall : (q.slots.length : Int) ≤ w.maxInt) :
    (q.beneath.length : Int) ≤ w.maxInt ∧ q.beneath.length + 1 < sizeRange :=
  Fib.beneath_lt hsmall (by simp [C.argument])

/-- A small argument is its own answer. -/
theorem leads_small (C : Called c q k x) (hsmall : (q.slots.length : Int) ≤ w.maxInt)
    (hx : w.minInt ≤ x ∧ x < 2) :
    Leads m (table n) ⟨3⟩ q k (delivered c q (.wrapInt x) q.mark (q.steps + 2)) := by
  have hrange : w.minInt ≤ x ∧ x ≤ w.maxInt := ⟨hx.1, hx.2.le.trans (w.digit_range (by decide)).2⟩
  obtain ⟨_, hsize⟩ := C.beneath_lt hsmall
  have htest : Leads m (table n) ⟨3⟩ q ⟨4⟩ q.tick := by
    have h := leads_of_code (p := table n) (l := ⟨3⟩) rfl rfl rfl
      (takes_test (m := m) (k := ⟨4⟩) (l := ⟨5⟩) hrange C.slot hsize)
    rwa [if_pos hx.2] at h
  obtain ⟨a, b, ha, hb, hbeneath⟩ := C.header
  have hc : (c.beneath.length : Int) ≤ w.maxInt := by
    rw [C.slots_length, Pose.slots, List.length_append] at hsmall
    omega
  refine htest.trans (leads_of_code rfl rfl rfl ?_)
  exact (takes_slot (q := q.tick.tick) C.slot (Nat.lt_of_succ_lt hsize)).bind
    (takes_ret ha hb hc hbeneath)

theorem leads_test (C : Called c q k x) (hsmall : (q.slots.length : Int) ≤ w.maxInt)
    (hx : 2 ≤ x ∧ x ≤ w.maxInt) : Leads m (table n) ⟨3⟩ q ⟨5⟩ q.tick := by
  have hrange : w.minInt ≤ x ∧ x ≤ w.maxInt :=
    ⟨(w.digit_range (n := 2) (by decide)).1.trans hx.1, hx.2⟩
  have h := leads_of_code (p := table n) (l := ⟨3⟩) rfl rfl rfl
    (takes_test (m := m) (k := ⟨4⟩) (l := ⟨5⟩) hrange C.slot (C.beneath_lt hsmall).2)
  rwa [if_neg (Int.not_lt.mpr hx.1)] at h

/-- The first recursive call. -/
theorem leads_big (C : Called c q k x) (hlimit : (m.maxStackWords : Int) ≤ w.maxInt)
    (hx : 2 ≤ x ∧ x ≤ w.maxInt) (hroom : q.slots.length + 3 ≤ m.maxStackWords) :
    ∃ r, Leads m (table n) ⟨3⟩ q ⟨3⟩ r ∧ Called q r ⟨6⟩ (x - 1) ∧ r.heap = q.heap ∧
      r.mark = max q.mark (q.slots.length + 3) ∧ r.steps = q.steps + 2 := by
  have hsmall : (q.slots.length : Int) ≤ w.maxInt := by omega
  obtain ⟨hlink, hsize⟩ := C.beneath_lt hsmall
  have ha : Word.codeAddress (w := w) 6 = .ok (.wrapInt 6) := Word.codeAddress_of_digit (by decide)
  have hb := Word.size_of_small hlink
  refine ⟨q.tick.tick.opened (.wrapInt 6) (.wrapInt q.beneath.length) [.wrapInt (x - 1)],
    (leads_test C hsmall hx).trans (leads_of_code rfl rfl rfl ?_),
    ⟨⟨_, _, ha, hb, rfl⟩, rfl, le_max_right _ _⟩, rfl, rfl, rfl⟩
  exact takes_lower (q := q.tick.tick) C.slot hsize (d := 1) (by decide) (takes_call ha hb hroom)

/-- The first recursive call does not fit. -/
theorem fails_big (C : Called c q k x) (hsmall : (q.slots.length : Int) ≤ w.maxInt)
    (hx : 2 ≤ x ∧ x ≤ w.maxInt) (hcount : q.steps + 2 < sizeRange)
    (hfull : m.maxStackWords < q.slots.length + 3) :
    Fails m (table n) ⟨3⟩ q (.error (.stackOverflow m.maxStackWords)) := by
  obtain ⟨_, hsize⟩ := C.beneath_lt hsmall
  refine (leads_test C hsmall hx).fails
    (fails_of_code rfl rfl hcount (takes_provide_zero.bind_stops ?_))
  exact stops_lower (q := q.tick.tick) C.slot hsize (d := 1) (by decide) (stops_call hfull)

section

variable {r : Pose w} {v : Word w}

theorem slot_push (hlocals : r.locals = [.wrapInt x]) :
    (r.tick.push r.result).locals[0]? = some (.wrapInt x) := by
  change (r.locals ++ [r.result])[0]? = _
  rw [hlocals]
  rfl

theorem length_push : (r.push v).slots.length = r.slots.length + 1 := by
  simp [Pose.push, Pose.refill, Pose.slots, Nat.add_assoc]

/-- The second recursive call, on top of the first result. -/
theorem leads_first (hlocals : r.locals = [.wrapInt x])
    (hlimit : (m.maxStackWords : Int) ≤ w.maxInt) (hroom : r.slots.length + 4 ≤ m.maxStackWords) :
    ∃ r', Leads m (table n) ⟨6⟩ r ⟨3⟩ r' ∧ Called (r.push r.result) r' ⟨7⟩ (x - 2) ∧
      r'.heap = r.heap ∧ r'.mark = max (r.push r.result).mark (r.slots.length + 4) ∧
      r'.steps = r.steps + 1 := by
  obtain ⟨hlink, hsize⟩ := beneath_lt (q := r) (by omega) (by simp [hlocals])
  have hpush : r.tick.slots.length + 1 ≤ m.maxStackWords := le_trans (Nat.add_le_add_left
    (by decide : 1 ≤ 4) r.slots.length) hroom
  have hfit : (r.tick.push r.result).slots.length + 3 ≤ m.maxStackWords := by
    rw [length_push]
    exact hroom
  have ha : Word.codeAddress (w := w) 7 = .ok (.wrapInt 7) := Word.codeAddress_of_digit (by decide)
  have hb := Word.size_of_small hlink
  refine ⟨(r.tick.push r.result).opened (.wrapInt 7) (.wrapInt r.beneath.length)
    [.wrapInt (x - 2)], leads_of_code rfl rfl rfl ?_, ⟨⟨_, _, ha, hb, rfl⟩, rfl, le_max_right _ _⟩,
    rfl, ?_, rfl⟩
  · exact takes_lastResult.bind <| (takes_pushLocal hpush).bind <|
      takes_lower (slot_push hlocals) hsize (d := 2) (by decide) (takes_call ha hb hfit)
  · change max (r.push r.result).mark ((r.push r.result).slots.length + 3) = _
    rw [length_push]

/-- The second recursive call does not fit, although the first result does. -/
theorem fails_first (hlocals : r.locals = [.wrapInt x])
    (hlimit : (m.maxStackWords : Int) ≤ w.maxInt) (hroom : r.slots.length + 1 ≤ m.maxStackWords)
    (hcount : r.steps + 1 < sizeRange) (hfull : m.maxStackWords < r.slots.length + 4) :
    Fails m (table n) ⟨6⟩ r (.error (.stackOverflow m.maxStackWords)) := by
  obtain ⟨_, hsize⟩ := beneath_lt (q := r) (by omega) (by simp [hlocals])
  have hpush : r.tick.slots.length + 1 ≤ m.maxStackWords := hroom
  have hfull' : m.maxStackWords < (r.tick.push r.result).slots.length + 3 := by
    rw [length_push]
    exact hfull
  refine fails_of_code rfl rfl hcount (takes_provide_zero.bind_stops ?_)
  exact takes_lastResult.bind_stops <| (takes_pushLocal hpush).bind_stops <|
    stops_lower (slot_push hlocals) hsize (d := 2) (by decide) (stops_call hfull')

/-- The two results are added. -/
theorem leads_second {a b : Word w} (ha : Word.codeAddress k.id = .ok a)
    (hb : Word.size c.beneath.length = .ok b) (hbeneath : r.beneath = c.slots ++ [a, b])
    (hlocals : r.locals = [.wrapInt x, .wrapInt y]) (hresult : r.result = .wrapInt z)
    (hsmall : (r.slots.length : Int) ≤ w.maxInt) :
    Leads m (table n) ⟨7⟩ r k (delivered c r (.wrapInt (y + z)) r.mark (r.steps + 1)) := by
  obtain ⟨hlink, hsize⟩ := beneath_lt hsmall (by simp [hlocals])
  have hslot : r.tick.locals[1]? = some (.wrapInt y) := by
    change r.locals[1]? = _
    rw [hlocals]
    rfl
  have hc : (c.beneath.length : Int) ≤ w.maxInt := by
    rw [hbeneath, Pose.slots, List.length_append, List.length_append] at hlink
    omega
  exact leads_of_code rfl rfl rfl (takes_second ha hb hc hbeneath hslot hsize hresult)

end

/-- With enough room a call delivers its number, and needs as much of it and takes as many steps as it
is said to. -/
theorem leads_fib (hlimit : (m.maxStackWords : Int) ≤ w.maxInt) (x : Nat)
    (hx : (x : Int) ≤ w.maxInt) {c q : Pose w} {k : Label} (C : Called c q k x)
    (hroom : c.slots.length + need x ≤ m.maxStackWords) :
    Leads m (table n) ⟨3⟩ q k (delivered c q (.wrapInt (Nat.fib x))
      (max q.mark (c.slots.length + need x)) (q.steps + cost x)) := by
  have hlength := C.slots_length
  have hthree := three_le_need x
  induction x using Nat.twoStepInduction generalizing c q k with
  | zero =>
    have hmark : max q.mark (c.slots.length + need 0) = q.mark := max_eq_left C.mark
    rw [hmark]
    exact leads_small C (by omega) ⟨(w.digit_range (by decide)).1, by decide⟩
  | one =>
    have hmark : max q.mark (c.slots.length + need 1) = q.mark := max_eq_left C.mark
    rw [hmark]
    exact leads_small C (by omega) ⟨(w.digit_range (by decide)).1, by decide⟩
  | more x ih₀ ih₁ =>
    have hneed := need_add_two x
    have hthree₀ := three_le_need x
    have hthree₁ := three_le_need (x + 1)
    obtain ⟨a, b, ha, hb, hbeneath⟩ := C.header
    obtain ⟨r, hbig, C₁, hheap₁, hmark₁, hsteps₁⟩ :=
      leads_big (n := n) C hlimit ⟨by omega, hx⟩ (by omega)
    rw [show ((x + 2 : Nat) : Int) - 1 = (x + 1 : Nat) by omega] at C₁
    have hfib₁ := ih₁ (by omega) C₁ (by omega) C₁.slots_length hthree₁
    -- Back in the frame of the call, with the first result.
    let r₁ := delivered q r (.wrapInt (Nat.fib (x + 1)))
      (max r.mark (q.slots.length + need (x + 1))) (r.steps + cost (x + 1))
    have hlength₁ : r₁.slots.length = q.slots.length := rfl
    obtain ⟨r', hfirst, C₂, hheap₂, hmark₂, hsteps₂⟩ :=
      leads_first (n := n) (r := r₁) C.argument hlimit (by omega)
    have hlength₂ : (r₁.push r₁.result).slots.length = q.slots.length + 1 := length_push
    rw [show ((x + 2 : Nat) : Int) - 2 = x by omega] at C₂
    have hfib₂ := ih₀ (by omega) C₂ (by omega) C₂.slots_length hthree₀
    -- The same frame, with the second result beside the first.
    have hsecond := leads_second (m := m) (n := n) (c := c) (z := Nat.fib x)
      (r := delivered (r₁.push r₁.result) r' (.wrapInt (Nat.fib x))
        (max r'.mark ((r₁.push r₁.result).slots.length + need x)) (r'.steps + cost x))
      ha hb hbeneath (show q.locals ++ [_] = _ by rw [C.argument]; rfl) rfl
      (show ((r₁.push r₁.result).slots.length : Int) ≤ w.maxInt by omega)
    have hmark : max q.mark (c.slots.length + need (x + 2)) =
        max r'.mark ((r₁.push r₁.result).slots.length + need x) := by
      have hpush : (r₁.push r₁.result).mark = max r₁.mark (q.slots.length + 1) := by
        change max r₁.mark (q.beneath.length + (q.locals ++ [_]).length) = _
        rw [Pose.slots, List.length_append, List.length_append]
        rfl
      have hmark₀ : r₁.mark = max r.mark (q.slots.length + need (x + 1)) := rfl
      omega
    have hsum : ((Nat.fib (x + 2) : Nat) : Int) = Nat.fib (x + 1) + Nat.fib x := by
      rw [Nat.fib_add_two]
      omega
    have hsteps : q.steps + cost (x + 2) = r'.steps + cost x + 1 := by
      have hsteps₀ : r₁.steps = r.steps + cost (x + 1) := rfl
      rw [cost_add_two]
      omega
    have hheap : r'.heap = q.heap := hheap₂.trans hheap₁
    rw [hmark, hsum, hsteps, delivered, ← hheap]
    exact hbig.trans <| hfib₁.trans <| hfirst.trans <| hfib₂.trans hsecond

/-- With less room the run comes to a call that does not fit. -/
theorem fails_fib (hlimit : (m.maxStackWords : Int) ≤ w.maxInt) (x : Nat)
    (hx : (x : Int) ≤ w.maxInt) {c q : Pose w} {k : Label} (C : Called c q k x)
    (hcount : q.steps + 2 * x + 4 < sizeRange) (hframe : c.slots.length + 3 ≤ m.maxStackWords)
    (hfull : m.maxStackWords < c.slots.length + need x) :
    Fails m (table n) ⟨3⟩ q (.error (.stackOverflow m.maxStackWords)) := by
  have hlength := C.slots_length
  induction x using Nat.twoStepInduction generalizing c q k with
  | zero => exact absurd hfull (Nat.not_lt.mpr hframe)
  | one => exact absurd hfull (Nat.not_lt.mpr hframe)
  | more x ih₀ ih₁ =>
    have hneed := need_add_two x
    have hargument : 2 ≤ ((x + 2 : Nat) : Int) ∧ ((x + 2 : Nat) : Int) ≤ w.maxInt := ⟨by omega, hx⟩
    by_cases hcall : q.slots.length + 3 ≤ m.maxStackWords
    · obtain ⟨r, hbig, C₁, _, _, hsteps⟩ := leads_big (n := n) C hlimit hargument hcall
      rw [show ((x + 2 : Nat) : Int) - 1 = (x + 1 : Nat) by omega] at C₁
      by_cases hfirst : m.maxStackWords < q.slots.length + need (x + 1)
      · exact hbig.fails (ih₁ (by omega) C₁ (by omega) hcall hfirst C₁.slots_length)
      · -- Only of the two smallest calls does the second one need more room.
        obtain rfl : x = 0 := by
          simp only [need] at hfull hfirst
          split_ifs at hfull hfirst <;> omega
        have hfib := leads_fib (n := n) hlimit 1 (by omega) C₁ (Nat.le_of_not_lt hfirst)
        refine hbig.fails (hfib.fails ?_)
        have hcost : r.steps + cost 1 + 1 < sizeRange := by
          have : cost 1 = 2 := rfl
          omega
        have hthree : need 0 = 3 := rfl
        exact fails_first C.argument hlimit (show q.slots.length + 1 ≤ _ by omega) hcost
          (show _ < q.slots.length + 4 by omega)
    · exact fails_big C (by omega) hargument (by omega) (by omega)

/-- The first call, on an empty stack. -/
theorem leads_start {h : Heap w} (hroom : 3 ≤ m.maxStackWords)
    (hn : w.minInt ≤ n ∧ n ≤ w.maxInt) :
    ∃ c q, c.slots = [] ∧ q.mark = 3 ∧ q.steps = 1 ∧
      Leads m (table n) ⟨2⟩ (entryPose h) ⟨3⟩ q ∧ Called c q .programEnd n := by
  refine ⟨⟨h, [], [], .unitWord, 0, 0⟩, (entryPose h).tick.refill [.wrapInt n], rfl, rfl, rfl, ?_,
    ⟨_, _, size_zero, size_zero, rfl⟩, rfl, le_refl 3⟩
  exact leads_of_code rfl rfl rfl <| (takes_int hn).bind (takes_tailCall hroom)

end

variable {s : MachineSettings} {n : Int}

/-- The recursion returns the Fibonacci number, wrapped around to a small integer, if the stack has
as many words as it needs and its steps can be counted. With more steps than that it traps, and with
fewer words it overflows the stack.

Room for the words of a stack is made by doubling. That there is always room for the next one is not
part of the model of a stack, so the words have to be fewer than half of those that room can be made
for. -/
theorem fib_exact_need (hvalid : s.validate w = .ok ()) (hn : w.minInt ≤ n ∧ n ≤ w.maxInt)
    (_hdouble : 2 * min (3 * n + 1) s.maxStackWords ≤ w.maxSpaceWords) (journal : Journal w) :
    ∃ p journal', (declare n).program journal = .ok (p, journal') ∧
      (∀ (sink : Sink w) (journal : Journal w),
        if s.heap.initialWords ≤ w.maxSpaceWords then ∃ m, create s sink journal = .ok m
        else create s sink journal = .error (.bounds, journal.recordMaking s.heap)) ∧
      ∀ m, Served s m →
        (n < 2 → ∃ v m', Settles m p (.ok v m') ∧ Word.int n = .ok v ∧ m'.stack.highWater = 3 ∧
          m'.steps = 3) ∧
        (2 ≤ n →
          if 3 * n + 1 ≤ s.maxStackWords then
            if 6 * Nat.fib (n.toNat + 1) - 3 < sizeRange then
              ∃ v m', Settles m p (.ok v m') ∧ v.Represents (Nat.fib n.toNat) ∧
                m'.stack.highWater = 3 * n + 1 ∧ m'.steps = 6 * Nat.fib (n.toNat + 1) - 3
            else ∃ m', Settles m p (.error (.trap .bounds) m')
          else ∃ m', Settles m p (.error (.error (.stackOverflow s.maxStackWords)) m')) := by
  obtain ⟨journal', hbuilt⟩ := program_declare n journal
  refine ⟨table n, journal', hbuilt, create_of_valid hvalid, fun m hm => ?_⟩
  obtain ⟨hstack, hroom, hlimit⟩ := hm.stack
  have htwo : 2 ≤ m.maxStackWords := le_trans (by decide) hroom
  have hhost : (m.hosting (table n)).maxStackWords = m.maxStackWords := rfl
  obtain ⟨c, q, hslots, hmark, hsteps, hstart, C⟩ :=
    leads_start (m := m.hosting (table n)) (h := m.heap) (by omega) hn
  have hempty : c.slots.length = 0 := by rw [hslots]; rfl
  have hlength := C.slots_length
  refine ⟨fun hsmall => ?_, fun hlarge => ?_⟩
  · have hlead := hstart.trans (leads_small C (by omega) ⟨hn.1, hsmall⟩)
    have hthree : q.steps + 2 = 3 := by omega
    obtain ⟨m', hsettles, _, hwater, hcount⟩ :=
      hlead.settles rfl htwo (show q.steps + 2 < _ by rw [hthree]; decide) hslots rfl
    exact ⟨_, m', hsettles, Word.int_of_range hn, hwater.trans hmark, hcount.trans hthree⟩
  · obtain ⟨x, rfl⟩ := Int.eq_ofNat_of_zero_le (le_trans (by decide) hlarge)
    have hneed : need x = 3 * x + 1 := if_neg (by omega)
    rw [Int.toNat_natCast, ← hstack]
    split
    · next hfits =>
      have hfib := hstart.trans
        (leads_fib (m := m.hosting (table x)) (n := x) hlimit x hn.2 C (by omega))
      have htotal : q.steps + cost x = 6 * Nat.fib (x + 1) - 3 := hsteps ▸ one_add_cost x
      split
      · next hcount =>
        obtain ⟨m', hsettles, _, hwater, hcounted⟩ :=
          hfib.settles rfl htwo (show q.steps + cost x < _ by omega) hslots rfl
        refine ⟨_, m', hsettles, Word.represents_wrapInt _, ?_, hcounted.trans htotal⟩
        change m'.stack.highWater = max q.mark (c.slots.length + need x) at hwater
        omega
      · next hcount => exact hfib.overflows rfl htwo (show _ ≤ q.steps + cost x by omega)
    · next hfull =>
      have hcount : q.steps + 2 * x + 4 < sizeRange := by
        cases w <;> simp only [Width.maxInt] at hn <;> simp only [sizeRange] <;> omega
      have hfails :=
        fails_fib (m := m.hosting (table x)) (n := x) hlimit x hn.2 C hcount (by omega) (by omega)
      exact (hstart.fails hfails).settles rfl htwo

/-- On the least stack five is the largest number that there is room for. With the default settings
the steps for ninety are more than can be counted. -/
theorem fib_exact_need_snug :
    snug.validate .bits64 = .ok () ∧
      (∃ p journal', (declare 5).program {} = .ok (p, journal') ∧
        ∃ v m', Settles (blank snug : Machine .bits64) p (.ok v m') ∧ v.Represents 5 ∧
          (m'.stack.highWater : Int) = 16 ∧ m'.steps = 45) ∧
      (∃ p journal', (declare 6).program {} = .ok (p, journal') ∧
        ∃ m', Settles (blank snug : Machine .bits64) p
          (.error (.error (.stackOverflow 16)) m')) ∧
      ∃ p journal', (declare 90).program {} = .ok (p, journal') ∧
        ∃ m', Settles (blank {} : Machine .bits64) p (.error (.trap .bounds) m') := by
  have hvalid : snug.validate .bits64 = .ok () := by decide +kernel
  have hserved : Served snug (blank snug : Machine .bits64) :=
    .fresh (create_blank hvalid (by decide))
  have hdefault : ({} : MachineSettings).validate .bits64 = .ok () := by decide +kernel
  have hserved' : Served {} (blank {} : Machine .bits64) :=
    .fresh (create_blank hdefault (by decide))
  obtain ⟨p, journal', hp, _, hrun⟩ :=
    fib_exact_need (n := 5) hvalid (by decide) (by decide) ({} : Journal .bits64)
  obtain ⟨p', journal'', hp', _, hrun'⟩ :=
    fib_exact_need (n := 6) hvalid (by decide) (by decide) ({} : Journal .bits64)
  obtain ⟨p₉₀, journal₉₀, hp₉₀, _, hrun₉₀⟩ :=
    fib_exact_need (n := 90) hdefault (by decide) (by decide) ({} : Journal .bits64)
  have hcount : ¬6 * Nat.fib (Int.toNat 90 + 1) - 3 < sizeRange := by decide +kernel
  have htrap := (hrun₉₀ _ hserved').2 (by decide)
  rw [if_pos (by decide), if_neg hcount] at htrap
  exact ⟨hvalid, ⟨p, journal', hp, (hrun _ hserved).2 (by decide)⟩,
    ⟨p', journal'', hp', (hrun' _ hserved).2 (by decide)⟩, p₉₀, journal₉₀, hp₉₀, htrap⟩

/-- With valid settings there may be no machine that the recursion could run on. -/
theorem fib_overlarge_traps :
    overlarge.validate .bits64 = .ok () ∧
      (∃ p journal', (declare 5 : Declare .bits64 Label).program {} = .ok (p, journal')) ∧
      ∀ (sink : Sink .bits64) (journal : Journal .bits64),
        create overlarge sink journal = .error (.bounds, journal.recordMaking overlarge.heap) :=
  ⟨validate_overlarge, ⟨_, program_declare 5 {}⟩, create_overlarge⟩

end Trampoline.Demo.Fib
