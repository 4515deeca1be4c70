import Trampoline.Proofs.Conduct
import Trampoline.Proofs.Runs

/-!
How large a heap is, when it grows, and what it was used for before cannot be observed.

A run can be observed through its outcome, the text of its value or its error, through what it
prints, and through its counts of steps and of stack words. Two machines with the same limits give
the same observation of a program that keeps the contract with the collector, however differently
their heaps are sized and filled, as long as neither run traps.
-/

namespace Trampoline

variable {w : Width}

inductive Verdict where
  | value (text : String)
  | failed (e : RuntimeError)
  | unfinished
deriving DecidableEq, Repr

structure Observation where
  verdict : Verdict
  printed : List (PrintKind × String)
  steps : Nat
  highWater : Nat
deriving DecidableEq, Repr

namespace Machine

def shows (m m' : Machine w) (verdict : Verdict) : Observation :=
  { verdict
    printed := m'.printed.drop m.printed.length
    steps := m'.steps
    highWater := m'.stack.highWater }

/-- What can be seen of a run on `m` from its outcome; nothing if it trapped. -/
def observe (m : Machine w) (r : Outcome w (Machine w) (Word w)) : Option Observation :=
  match r with
  | .ok v m' =>
    match m'.heap.render m'.names v with
    | .ok text => some (m.shows m' (.value text))
    | .error _ => none
  | .error (.error e) m' => some (m.shows m' (.failed e))
  | .error .unfinished m' => some (m.shows m' .unfinished)
  | .error (.trap _) _ => none

variable {S : Scene w} {m n : Machine w}

def scene (m n : Machine w) : Scene w := ⟨m, 0, m.printed, n.printed⟩

/-- At the start of a run nothing of the heap is in use: any two machines with the same limits are
twins. -/
theorem Twins.start (names : Names) (hm : m.heap.Bounded) (hn : n.heap.Bounded)
    (hmax : m.heap.settings.maxWords = n.heap.settings.maxWords)
    (hstack : m.maxStackWords = n.maxStackWords) (hkeep : m.sink.keep = n.sink.keep) :
    Twins (scene m n) 0 [] (m.reset names) (n.reset names) where
  heap := Heap.Twins.nil hm hn hmax
  result := .refl_of_none Word.ref?_unitWord
  slots := .nil
  fp := rfl
  fp' := rfl
  names := rfl
  maxStack := hstack
  outward := ⟨rfl, rfl, hkeep, [], (List.append_nil _).symm, (List.append_nil _).symm⟩
  carried := ⟨Nat.zero_le _, rfl, fun _ _ => False,
    ⟨fun h => h.elim, fun h => h.elim, fun h => h.elim, fun h => h.elim, fun h => h.elim⟩,
    fun _ _ h => h.elim, .nil⟩

/-- Runs that ended with values: the values have the same text. -/
def SameText (v u : Word w) (m n : Machine w) : Prop :=
  ∃ text, m.heap.render m.names v = .ok text ∧ n.heap.render n.names u = .ok text

theorem render_eq_ok {v : Word w} {text : String} {m' : Machine w}
    (h : render v m = .ok text m') : m.heap.render m.names v = .ok text := by
  change (liftM (m.heap.render m.names v) : Op w String) m = _ at h
  cases hr : m.heap.render m.names v with
  | ok t => rw [hr] at h; cases h; rfl
  | error t => rw [hr] at h; cases h

open Twins (Alike)

/-- Runs of one program on machines with the same limits print the same, whatever the sizes of their
heaps. -/
theorem run_twins (p : Program (Body w)) (fuel : Nat) (hm : m.heap.Bounded) (hn : n.heap.Bounded)
    (hmax : m.heap.settings.maxWords = n.heap.settings.maxWords)
    (hstack : m.maxStackWords = n.maxStackWords) (hkeep : m.sink.keep = n.sink.keep) :
    Alike (scene m n)
      (fun v u m' n' => SameText v u m' n' ∧ Outward (scene m n) m' n')
      (run (p.map Body.careful) fuel m) (run (p.map Body.code) fuel n) := by
  have hstart : Alike (scene m n) (fun a b m' n' => a = b ∧ ∃ f W, Twins (scene m n) f W m' n')
      (start (p.map Body.careful) m) (start (p.map Body.code) n) := by
    have M := Twins.start p.names hm hn hmax hstack hkeep
    refine Agree.bind (Q := fun _ _ m' n' => Twins (scene m n) 0 [] m' n') M ?_
    intro _ _ m₁ n₁ M₁
    refine Agree.bind (M₁.recordNamed _ _) ?_
    intro _ _ m₂ n₂ M₂
    exact M₂.call p.entry .programEnd .nil
  refine Agree.bind hstart ?_
  rintro entry _ m₃ n₃ ⟨rfl, f, W, M₃⟩
  refine Agree.bind (M₃.loop p rfl fuel entry) ?_
  rintro _ _ m₄ n₄ ⟨g, V, M₄⟩
  refine Agree.get ?_
  rw [← M₄.depth]
  split
  · trivial
  · refine Agree.bind (Q := fun _ _ m' n' =>
      ∃ j l, m' = { m₄ with journal := j } ∧ n' = { n₄ with journal := l }) ⟨_, _, rfl, rfl⟩ ?_
    rintro _ _ _ _ ⟨j, l, rfl, rfl⟩
    have M₅ := M₄.setJournal j l
    refine Agree.bind (M₅.render M₄.result).record ?_
    rintro text _ _ _ ⟨⟨_, rfl, rfl, rfl⟩, hm', hn'⟩
    have M₆ := M₅.printedTwice (v := m₄.result) (u := n₄.result) .toplevel text
    have hv := render_eq_ok hm'
    have hu := render_eq_ok hn'
    exact ⟨⟨text, hv, hu⟩, M₆.outward⟩

/-- Observations of runs that did the same to both sides. -/
theorem shows_eq {m' n' : Machine w} (h : Outward (scene m n) m' n') (verdict : Verdict) :
    m.shows m' verdict = n.shows n' verdict := by
  obtain ⟨ps, hm, hn⟩ := h.printed
  simp only [shows, h.steps, h.highWater]
  rw [hm, hn]
  simp [scene]

/-- The heap's sizes, its growth and its past are not observable. -/
theorem run_observes_no_sizing {s s' : MachineSettings} (H : History s m) (H' : History s' n)
    (hmax : s.heap.maxWords = s'.heap.maxWords) (hstack : s.maxStackWords = s'.maxStackWords)
    (hkeep : m.sink.keep = n.sink.keep) (p : Program (Body w)) (fuel : Nat)
    (hcareful : ¬ Traps (run (p.map Body.careful) fuel m))
    (hsafe : ¬ Traps (run (p.map Body.code) fuel n)) :
    ∃ o, m.observe (run (p.map Body.code) fuel m) = some o ∧
      n.observe (run (p.map Body.code) fuel n) = some o := by
  have hmax' : m.heap.settings.maxWords = n.heap.settings.maxWords := by
    rw [H.made.settings, H'.made.settings, hmax]
  have hstack' : m.maxStackWords = n.maxStackWords := by
    rw [H.made.stack, H'.made.stack, hstack]
  have hagree := run_twins p fuel H.made.heap H'.made.heap hmax' hstack' hkeep
  obtain htrap | heq := run_careful p fuel m
  · exact absurd htrap hcareful
  rw [heq] at hagree hcareful
  obtain htrap | ⟨_, htrap⟩ | ⟨v, u, m', n', hm, hn, ⟨text, hv, hu⟩, hout⟩ |
    ⟨e, m', n', hm, hn, hout⟩ | ⟨m', n', hm, hn, hout⟩ := hagree.cases
  · exact absurd htrap hcareful
  · exact absurd htrap hsafe
  · refine ⟨m.shows m' (.value text), ?_, ?_⟩
    · rw [hm, observe, hv]
    · rw [hn, observe, hu, shows_eq hout]
  · refine ⟨m.shows m' (.failed e), ?_, ?_⟩
    · rw [hm, observe]
    · rw [hn, observe, shows_eq hout]
  · refine ⟨m.shows m' .unfinished, ?_, ?_⟩
    · rw [hm, observe]
    · rw [hn, observe, shows_eq hout]

def tight : MachineSettings := ⟨⟨4, 64, 0.5⟩, 64⟩

def roomy : MachineSettings := ⟨⟨32, 64, 1.0⟩, 64⟩

/-- A pair is made, kept on the stack across a checkpoint, and put into another pair. -/
def nesting : Program (Body .bits64) :=
  let body : Body .bits64 :=
    [.push (.pair (.literal (.int 1)) (.literal (.int 2))), .prealloc 3,
      .push (.pair (.slot 0) (.literal (.int 3))), .trace (.slot 1), .transfer (.ret (.slot 1))]
  { slots := #[{ name := "program_end" }, { name := "apply_pending" },
      { name := "main", maxAlloc := 2, code := some body }]
    entry := ⟨2⟩
    names := .builtin }

def reused : Machine .bits64 := Outcome.state (run (nesting.map Body.code) 9 (blank roomy))

/-- A heap that has to collect and one that does not show the same run. -/
theorem run_observes_no_sizing_nesting :
    ¬ Traps (run (nesting.map Body.careful) 9 (blank tight)) ∧
    ¬ Traps (run (nesting.map Body.code) 9 reused) ∧
    ∃ o, (blank tight).observe (run (nesting.map Body.code) 9 (blank tight)) = some o ∧
      reused.observe (run (nesting.map Body.code) 9 reused) = some o := by
  have hcareful : ¬ Traps (run (nesting.map Body.careful) 9 (blank tight)) := by decide +kernel
  have hsafe : ¬ Traps (run (nesting.map Body.code) 9 reused) := by decide +kernel
  have hended : Outcome.ended (run (nesting.map Body.code) 9 (blank roomy)) = true := by
    decide +kernel
  have H : History tight (blank tight : Machine .bits64) :=
    .fresh (create_blank (by decide +kernel) (by decide))
  have H' : History roomy reused :=
    (History.fresh (create_blank (by decide +kernel) (by decide))).ran nesting 9 hended
  exact ⟨hcareful, hsafe, run_observes_no_sizing H H' rfl rfl (by decide +kernel) nesting 9
    hcareful hsafe⟩

end Machine

end Trampoline
