import Trampoline.Demo
import Trampoline.Proofs.Upkeep

/-!
Machines that are used.

A machine is made once and is then put to one use after another: single operations and runs of
programs. Theorems about machines in use differ in which uses they allow and in how these may have
ended, so both are parameters here. Besides the machine goes what its user holds outside it: values
that came back, until a collection moves the blocks they refer to.
-/

namespace Trampoline

variable {w : Width}

def Outcome.answers {σ : Type} : Outcome w σ (List (Word w)) → List (Word w)
  | .ok out _ => out
  | .error _ _ => []

namespace Machine

/-- What can be done with a machine, with the values that are passed in. -/
inductive Action (w : Width) where
  | prealloc (words : Nat)
  | preallocSaving (words : Nat) (temps : List (Word w))
  | collect
  | construct (c : Constructor) (fields : List (Word w))
  | makePair (fst snd : Word w)
  | makeClosure (f : Function) (captured : List (Word w))
  | extendClosure (cl : Word w) (args : List (Word w))
  | field (v : Word w) (i : Nat)
  | fst (v : Word w)
  | snd (v : Word w)
  | slot (i : Nat)
  | lastResult
  | pushLocal (v : Word w)
  | setSlot (i : Nat) (v : Word w)
  | call (callee : Label) (args : List (Word w)) (k : Label)
  | tailCall (callee : Label) (args : List (Word w))
  | ret (v : Word w)
  | callClosure (cl : Word w) (args : List (Word w)) (k : Label)
  | tailCallClosure (cl : Word w) (args : List (Word w))
  | apply (cl : Word w) (args : List (Word w)) (k : Label)
  | tailApply (cl : Word w) (args : List (Word w))
  | applyPending
  | reset (names : Names)

namespace Action

def inputs : Action w → List (Word w)
  | prealloc _ | collect | slot _ | lastResult | applyPending | reset _ => []
  | preallocSaving _ vs | construct _ vs | makeClosure _ vs | call _ vs _ | tailCall _ vs => vs
  | makePair v u => [v, u]
  | field v _ | fst v | snd v | pushLocal v | setSlot _ v | ret v => [v]
  | extendClosure cl args | callClosure cl args _ | tailCallClosure cl args | apply cl args _
  | tailApply cl args => cl :: args

def perform : Action w → Op w (List (Word w))
  | prealloc words => do Machine.prealloc words; return []
  | preallocSaving words temps => do return (← Machine.preallocSaving words temps).1
  | collect => do Machine.collect; return []
  | construct c fields => do return [← Machine.construct c fields]
  | makePair v u => do return [← Machine.makePair v u]
  | makeClosure f captured => do return [← Machine.makeClosure f captured]
  | extendClosure cl args => do return [← Machine.extendClosure cl args]
  | field v i => do return [← Machine.field v i]
  | fst v => do return [← Machine.fst v]
  | snd v => do return [← Machine.snd v]
  | slot i => do return [← Machine.slot i]
  | lastResult => do return [← Machine.lastResult]
  | pushLocal v => do Machine.pushLocal v; return []
  | setSlot i v => do Machine.setSlot i v; return []
  | call callee args k => do let _ ← Machine.call callee args k; return []
  | tailCall callee args => do let _ ← Machine.tailCall callee args; return []
  | ret v => do let _ ← Machine.ret v; return []
  | callClosure cl args k => do let _ ← Machine.callClosure cl args k; return []
  | tailCallClosure cl args => do let _ ← Machine.tailCallClosure cl args; return []
  | apply cl args k => do let _ ← Machine.apply cl args k; return []
  | tailApply cl args => do let _ ← Machine.tailApply cl args; return []
  | applyPending => do let _ ← Machine.applyPending; return []
  | reset names => do modify (·.reset names); return []

end Action

inductive Use (w : Width) where
  | act (a : Action w)
  | run (p : Program (Code w)) (fuel : Nat)

def Use.perform : Use w → Op w (List (Word w))
  | act a => a.perform
  | run p fuel => do return [← Machine.run p fuel]

/-- The values that are still held after an operation: all of them, unless it collected. -/
def kept (m m' : Machine w) (held : List (Word w)) : List (Word w) :=
  if m'.heap.stats.collections = m.heap.stats.collections then held else []

/-- A machine that was made with the settings and has since been put to uses that are allowed, with
outcomes after which it goes on; and the values that are held now. -/
inductive Used (s : MachineSettings) (allowed : List (Word w) → Machine w → Use w → Prop)
    (goesOn : Outcome w (Machine w) (List (Word w)) → Prop) : Machine w → List (Word w) → Prop where
  | fresh {sink : Sink w} {journal : Journal w} {m : Machine w} :
      create s sink journal = .ok m → Used s allowed goesOn m []
  | put {m : Machine w} {held : List (Word w)} {r : Outcome w (Machine w) (List (Word w))}
      (u : Use w) : Used s allowed goesOn m held → allowed held m u → u.perform m = r → goesOn r →
      Used s allowed goesOn r.state (r.answers ++ kept m r.state held)

/-- Any operation, with any values, or a run of a program of bodies or of a sample program. -/
inductive Use.Common : Use w → Prop where
  | act (a : Action w) : Common (.act a)
  | bodies (p : Program (Body w)) (fuel : Nat) : Common (.run (p.map Body.code) fuel)
  | demo {d : Demo} {n : Int} {journal journal' : Journal w} {p : Program (Code w)} (fuel : Nat) :
      d ∈ Demo.all → d.program n journal = .ok (p, journal') → Common (.run p fuel)

/-- A machine that was made with the settings and has been used since, whatever came of it. -/
def Served (s : MachineSettings) (m : Machine w) : Prop :=
  ∃ held, Used s (fun _ _ u => u.Common) (fun _ => True) m held

/-- A machine that was made with the settings and has been used since, for whatever ended, with a
value or with an error. -/
def Intact (s : MachineSettings) (m : Machine w) : Prop :=
  ∃ held, Used s (fun _ _ u => u.Common) (fun r => r.ended = true) m held

/-- A machine that was made with the settings, and has since run programs that ended, with a value
or with an error. -/
def History (s : MachineSettings) (m : Machine w) : Prop :=
  ∃ held, Used s (fun _ _ u => ∃ p fuel, u = .run (Program.map Body.code p) fuel)
    (fun r => r.ended = true) m held

/-- A machine that was made with the settings, with which actions that are allowed have been
performed since, for a value or an error; and the values that are held now. -/
def Performed (s : MachineSettings) (allowed : List (Word w) → Machine w → Action w → Prop) :
    Machine w → List (Word w) → Prop :=
  Used s (fun held m u => ∃ a, u = .act a ∧ allowed held m a) fun r => r.ended = true

variable {s : MachineSettings} {m : Machine w} {held : List (Word w)}
  {allowed : List (Word w) → Machine w → Use w → Prop}
  {goesOn : Outcome w (Machine w) (List (Word w)) → Prop}

theorem Used.valid (h : Used s allowed goesOn m held) : s.validate w = .ok () := by
  induction h with
  | fresh hc => exact (create_eq_ok hc).1
  | put _ _ _ _ _ ih => exact ih

theorem Served.fresh {sink : Sink w} {journal : Journal w} (h : create s sink journal = .ok m) :
    Served s m :=
  ⟨[], .fresh h⟩

theorem Intact.fresh {sink : Sink w} {journal : Journal w} (h : create s sink journal = .ok m) :
    Intact s m :=
  ⟨[], .fresh h⟩

theorem History.fresh {sink : Sink w} {journal : Journal w} (h : create s sink journal = .ok m) :
    History s m :=
  ⟨[], .fresh h⟩

theorem Intact.served (h : Intact s m) : Served s m := by
  obtain ⟨held, h⟩ := h
  induction h with
  | fresh hc => exact .fresh hc
  | put u _ hu hr _ ih =>
    obtain ⟨held', h'⟩ := ih
    exact ⟨_, h'.put u hu hr trivial⟩

theorem Served.acted (h : Served s m) (a : Action w) : Served s (Outcome.state (a.perform m)) := by
  obtain ⟨held, h⟩ := h
  exact ⟨_, h.put (.act a) (.act a) rfl trivial⟩

theorem History.ran (h : History s m) (p : Program (Body w)) (fuel : Nat)
    (hend : Outcome.ended (Machine.run (p.map Body.code) fuel m) = true) :
    History s (Outcome.state (Machine.run (p.map Body.code) fuel m)) := by
  obtain ⟨held, h⟩ := h
  cases hr : Machine.run (p.map Body.code) fuel m with
  | ok v n => exact ⟨_, h.put (.run (p.map Body.code) fuel) ⟨p, fuel, rfl⟩ (bind_of_ok hr) rfl⟩
  | error e n =>
    rw [hr] at hend
    refine ⟨_, h.put (.run (p.map Body.code) fuel) ⟨p, fuel, rfl⟩ (bind_of_error hr) ?_⟩
    cases e <;> exact hend

/-- Perform actions in turn, if they are allowed, and account for the values held. -/
def advances (allowed : List (Word w) → Machine w → Action w → Prop)
    [∀ held m a, Decidable (allowed held m a)] (p : Machine w × List (Word w)) :
    List (Action w) → Option (Machine w × List (Word w))
  | [] => some p
  | a :: as =>
    if allowed p.2 p.1 a then
      match a.perform p.1 with
      | .ok out m' => advances allowed (m', out ++ kept p.1 m' p.2) as
      | .error (.error _) m' => advances allowed (m', kept p.1 m' p.2) as
      | .error _ _ => none
    else none

/-- Actions that are allowed and were carried out in turn are a use of the machine. -/
theorem Performed.advances {allowed : List (Word w) → Machine w → Action w → Prop}
    [∀ held m a, Decidable (allowed held m a)] {as : List (Action w)} {q : Machine w × List (Word w)}
    (h : Performed s allowed m held) (heq : advances allowed (m, held) as = some q) :
    Performed s allowed q.1 q.2 := by
  induction as generalizing m held with
  | nil => cases heq; exact h
  | cons a as ih =>
    unfold Machine.advances at heq
    split at heq
    · next ha =>
      split at heq
      · next out m' hok => exact ih (h.put (.act a) ⟨a, rfl, ha⟩ hok rfl) heq
      · next e m' herr => exact ih (h.put (.act a) ⟨a, rfl, ha⟩ herr rfl) heq
      · cases heq
    · cases heq

end Machine

end Trampoline
