import Mathlib.Data.List.Forall2
import Trampoline.Proofs.Agreement

/-!
Careful code.

Code that runs on the machine keeps a contract with the collector. All its references come from
operations of the machine. It keeps them across a checkpoint only where the collector sees them, on
the stack and in the result register, or has them saved. It reads fields of constructors only,
makes closures over labels with code of their own, and does not tell references apart by their
words.

A body is run carefully when every breach of this contract is stopped by a trap, and registers that
hold references are emptied at every checkpoint. A careful run that does not trap does what the run
itself does; so whether a program keeps the contract can be seen from its careful run.
-/

namespace Trampoline

variable {w : Width}

/-- No arm of a case stands for the word of a reference. -/
def Case.plain {β : Type} (c : Case β) : Bool :=
  match c.immediate with
  | .switch arms => arms.keys.all (· % 4 != 1)
  | _ => true

/-- The registers that do not hold references. -/
def Registers.immediate (r : Registers w) : Registers w :=
  ⟨r.entries.filter fun entry => (r.entries.lookup entry.1).any (·.ref?.isNone)⟩

namespace Act

def refuse (breach : Bool) : Act w Unit := if breach then throw (.trap .bounds) else pure ()

/-- Empty the registers that hold references. -/
def forget : Act w Unit := modify fun d => { d with registers := d.registers.immediate }

end Act

namespace Expr

mutual

/-- The value of an expression, obtained with care. -/
def careful : Expr w → Act w (Word w)
  | literal l => do
    let v ← Act.check l.word
    Act.refuse v.ref?.isSome
    return v
  | register name => Act.register name
  | slot i => Machine.slot (w := w) i
  | result => Machine.lastResult (w := w)
  | nullary c => Act.check c.unboxedValue
  | construct c fields => do
    let fields ← carefulList fields
    Machine.construct c fields
  | pair a b => do
    let a ← a.careful
    let b ← b.careful
    Machine.makePair a b
  | closure f captured => do
    Act.refuse f.label.isReserved
    let captured ← carefulList captured
    Machine.makeClosure f captured
  | extend e args => do
    let cl ← e.careful
    let args ← carefulList args
    Machine.extendClosure cl args
  | field e i => do
    let v ← e.careful
    let c ← Act.heap (·.closure? v)
    Act.refuse c.isSome
    Machine.field v i
  | fst e => do
    let v ← e.careful
    Machine.fst v
  | snd e => do
    let v ← e.careful
    Machine.snd v
  | equal a b => do
    let a ← a.careful
    let b ← b.careful
    return .ofBool (← Machine.equalValues a b)
  | arith op a b => do
    let a ← a.careful
    let b ← b.careful
    match op.apply a b with
    | .ok v => return v
    | .error e => throw e

def carefulList : List (Expr w) → Act w (List (Word w))
  | [] => return []
  | e :: es => do
    let v ← e.careful
    let vs ← carefulList es
    return v :: vs

end

end Expr

def Probe.careful : Probe w → Act w (Answer w)
  | eval e => return .word (← e.careful)
  | render e => do
    let v ← e.careful
    return .text (← Machine.render v)
  | headerOf e => do
    let v ← e.careful
    return .header (← Act.heap (·.headerOf v))
  | view e => do
    let v ← e.careful
    return .closure (← Machine.closureView v)
  | same a b => do
    let a ← a.careful
    let b ← b.careful
    return .bool (← Machine.equalValues a b)
  | block e => do
    let v ← e.careful
    let r ← Act.check (Heap.expectRef v)
    return .words (← Act.heap (·.block r))
  | route c e => do
    Act.refuse !c.plain
    let v ← e.careful
    let d ← get
    match c.select d.machine.heap v with
    | .ok (label, way) => return .branch label way
    | .error e => throw e
  | p => p.ask

def Transfer.careful : Transfer w → Act w Label
  | jump label => return label
  | ret e => do
    let v ← e.careful
    Machine.ret v
  | call callee args k => do
    let args ← Expr.carefulList args
    Machine.call callee args k
  | tailCall callee args => do
    let args ← Expr.carefulList args
    Machine.tailCall callee args
  | branch condition ifTrue ifFalse => do
    let v ← condition.careful
    Machine.branch v ifTrue ifFalse
  | select c e => do
    Act.refuse !c.plain
    let v ← e.careful
    Machine.select c v
  | callClosure closure args k => do
    let cl ← closure.careful
    let args ← Expr.carefulList args
    Machine.callClosure cl args k
  | tailCallClosure closure args => do
    let cl ← closure.careful
    let args ← Expr.carefulList args
    Machine.tailCallClosure cl args
  | apply closure args k => do
    let cl ← closure.careful
    let args ← Expr.carefulList args
    Machine.apply cl args k
  | tailApply closure args => do
    let cl ← closure.careful
    let args ← Expr.carefulList args
    Machine.tailApply cl args
  | fail e => do
    let v ← e.careful
    Machine.failure v

namespace Stmt

/-- Reserve words while some registers ride on the stack, and forget the references in all others. -/
def reserveCareful (words : Nat) (names : List String) : Act w Unit := do
  let temps ← Act.registers names
  let (temps, shortage) ← Machine.preallocSaving words temps
  Act.forget
  modify fun d => { d with
    registers := (names.zip temps).foldl (fun r (name, v) => r.set name v) d.registers }
  match shortage with
  | none => return
  | some s => throw (.error (.outOfMemory s))

mutual

def careful : Stmt w → Act w (Option Label)
  | assign register e => do
    let v ← e.careful
    Act.assign register v
    return none
  | push e => do
    let v ← e.careful
    Machine.pushLocal v
    return none
  | setSlot i e => do
    let v ← e.careful
    Machine.setSlot i v
    return none
  | trace e => do
    let v ← e.careful
    Machine.trace v
    return none
  | prealloc words => do
    Machine.prealloc (w := w) words
    Act.forget
    return none
  | preallocSaving words registers => do
    reserveCareful words registers
    return none
  | dumpStack => do
    Machine.dumpStack (w := w)
    return none
  | cond e ifTrue ifFalse => do
    let v ← e.careful
    if ← Act.check v.isTrue then carefulList ifTrue else carefulList ifFalse
  | rounds n body => Act.rounds (carefulList body) 0 n
  | probe p => do
    let a ← p.careful
    modify fun d => { d with machine := { d.machine with journal := d.machine.journal.note a } }
    return none
  | transfer t => some <$> t.careful

def carefulList : List (Stmt w) → Act w (Option Label)
  | [] => return none
  | s :: ss => do
    match ← s.careful with
    | some label => return some label
    | none => carefulList ss

end

end Stmt

/-- The code that a body stands for, run with care. -/
def Body.careful (body : Body w) : Code w := fun m =>
  match Stmt.carefulList body { machine := m } with
  | .ok (some label) d => .ok label d.machine
  | .ok none d => .error (.trap .bounds) d.machine
  | .error e d => .error e d.machine

theorem Act.heap_of_ok {α : Type} {f : Heap w → Except (Trap w) α} {d : Desk w} {a : α}
    (h : f d.machine.heap = .ok a) : Act.heap f d = .ok a d := by
  change Act.check (f d.machine.heap) d = _
  rw [h]
  rfl

theorem Act.heap_of_error {α : Type} {f : Heap w → Except (Trap w) α} {d : Desk w} {t : Trap w}
    (h : f d.machine.heap = .error t) : Act.heap f d = .error (.trap t) d := by
  change Act.check (f d.machine.heap) d = _
  rw [h]
  rfl

/-! ### Registers -/

namespace Registers

/-- Every register that is set on the left is set on the right, to a related word. -/
def Related (R : Word w → Word w → Prop) (r q : Registers w) : Prop :=
  ∀ name v, r.entries.lookup name = some v → ∃ u, q.entries.lookup name = some u ∧ R v u

/-- Looking up a name among entries that were picked by name. -/
theorem lookup_filter {α : Type} (p : String → Bool) (entries : List (String × α))
    (name : String) :
    (entries.filter fun entry => p entry.1).lookup name =
      if p name then entries.lookup name else none := by
  induction entries with
  | nil => simp
  | cons entry entries ih =>
    obtain ⟨x, v⟩ := entry
    by_cases hx : name = x
    · subst hx
      by_cases hp : p name <;> simp [hp, ih]
    · have hbeq : (name == x) = false := by simpa using hx
      by_cases hp : p x <;> simp [hp, ih, List.lookup_cons, hbeq]

theorem lookup_set (r : Registers w) (name x : String) (v : Word w) :
    (r.set name v).entries.lookup x = if x = name then some v else r.entries.lookup x := by
  by_cases hx : x = name
  · simp [set, hx]
  · have hbeq : (x == name) = false := by simpa using hx
    have hp := lookup_filter (fun y => y != name) r.entries x
    simp only [set, List.lookup_cons, hbeq, if_neg hx]
    rw [hp, if_pos (by simpa using hx)]

/-- What is left in the registers that were not forgotten was there, and is no reference. -/
theorem lookup_immediate {r : Registers w} {name : String} {v : Word w}
    (h : r.immediate.entries.lookup name = some v) :
    r.entries.lookup name = some v ∧ v.ref? = none := by
  have hp := lookup_filter (fun x => (r.entries.lookup x).any (·.ref?.isNone)) r.entries name
  simp only [immediate] at h
  rw [hp] at h
  split at h
  · next hany =>
    rw [h] at hany
    exact ⟨h, by simpa using hany⟩
  · cases h

/-- Setting a register to related words keeps registers related. -/
theorem Related.set {R : Word w → Word w → Prop} {r q : Registers w} (h : Related R r q)
    (name : String) {v u : Word w} (hv : R v u) : Related R (r.set name v) (q.set name u) := by
  intro x y hx
  rw [lookup_set] at hx
  rw [lookup_set]
  split at hx
  · cases hx
    exact ⟨u, by simp [*], hv⟩
  · next hne =>
    rw [if_neg hne]
    exact h x y hx

theorem Related.setAll {R : Word w → Word w → Prop} {vs us : List (Word w)}
    (hvs : List.Forall₂ R vs us) (names : List String) {r q : Registers w} (h : Related R r q) :
    Related R ((names.zip vs).foldl (fun r (name, v) => r.set name v) r)
      ((names.zip us).foldl (fun r (name, v) => r.set name v) q) := by
  induction hvs generalizing names r q with
  | nil => simpa using h
  | cons hv _ ih =>
    cases names with
    | nil => simpa using h
    | cons name names => exact ih names (h.set name hv)

end Registers

/-! ### Careful runs do what runs do -/

/-- The desks of a careful run and of the run itself: one machine, and registers of which the
careful run may have forgotten some. -/
structure Shadows (d e : Desk w) : Prop where
  machine : d.machine = e.machine
  registers : d.registers.Related Eq e.registers

/-- Unless it traps, the first action does what the second one does. -/
def Act.Refines {α : Type} (x y : Act w α) : Prop :=
  ∀ d e, Shadows d e →
    Agree False (fun d e => d.machine = e.machine) (fun a b d e => a = b ∧ Shadows d e) (x d) (y e)

namespace Act.Refines

variable {α β : Type}

theorem pure (a : α) : Refines (w := w) (Pure.pure a) (Pure.pure a) := fun _ _ h => ⟨rfl, h⟩

theorem bind {x y : Act w α} {f g : α → Act w β} (h : Refines x y)
    (hf : ∀ a, Refines (f a) (g a)) : Refines (x >>= f) (y >>= g) := by
  intro d e hde
  refine Agree.bind (h d e hde) ?_
  rintro a _ d' e' ⟨rfl, hde'⟩
  exact hf a d' e' hde'

theorem throw (f : Fault w RuntimeError) : Refines (α := α) (throw f) (throw f) := by
  intro d e hde
  cases f with
  | error f => exact ⟨rfl, hde.machine⟩
  | trap t => trivial
  | unfinished => exact hde.machine

theorem check (r : Except (Trap w) α) : Refines (Act.check r) (Act.check r) := by
  cases r with
  | ok a => exact pure a
  | error t => exact throw (.trap t)

/-- An operation of the machine does not see the registers. -/
theorem op (o : Op w α) : Refines (w := w) (liftM o) (liftM o) := by
  intro d e hde
  have hsame : Agree (w := w) False Eq (fun a b m n => a = b ∧ m = n) (o d.machine)
      (o e.machine) := by
    rw [hde.machine]
    exact Agree.refl _
  refine (Agree.lift hsame).mono ?_
  rintro a b d' e' ⟨⟨hab, hm⟩, hd, he⟩
  exact ⟨hab, hm, hd ▸ he ▸ hde.registers⟩

theorem modify {f : Desk w → Desk w} {g : Desk w → Desk w}
    (h : ∀ d e, Shadows d e → Shadows (f d) (g e)) : Refines (modify f) (modify g) :=
  fun d e hde => ⟨rfl, h d e hde⟩

/-- What is read from the machine is the same. -/
theorem get {f g : Desk w → Act w α} (h : ∀ m r q, Refines (f ⟨m, r⟩) (g ⟨m, q⟩)) :
    Refines (get >>= f) (get >>= g) := by
  rintro ⟨m, r⟩ ⟨n, q⟩ ⟨hm, hr⟩
  cases hm
  exact h m r q ⟨m, r⟩ ⟨m, q⟩ ⟨rfl, hr⟩

theorem heap (f : Heap w → Except (Trap w) α) : Refines (Act.heap f) (Act.heap f) :=
  get fun m _ _ => check (f m.heap)

/-- A question that only the careful side asks. -/
theorem look {f : Heap w → Except (Trap w) α} {x : α → Act w β} {y : Act w β}
    (h : ∀ a, Refines (x a) y) : Refines (Act.heap f >>= x) y := by
  intro d e hde
  cases hf : f d.machine.heap with
  | ok a =>
    rw [bind_of_ok (Act.heap_of_ok hf)]
    exact h a d e hde
  | error t =>
    rw [bind_of_error (Act.heap_of_error hf)]
    trivial

theorem refuse {breach : Bool} {x y : Act w β} (h : Refines x y) :
    Refines (Act.refuse breach >>= fun _ => x) y := by
  intro d e hde
  cases breach with
  | true => trivial
  | false => exact h d e hde

theorem register (name : String) : Refines (w := w) (Act.register name) (Act.register name) := by
  intro d e hde
  change Agree _ _ _ (Act.check (d.registers.get name) d) (Act.check (e.registers.get name) e)
  cases hv : d.registers.entries.lookup name with
  | none =>
    rw [Registers.get, hv]
    trivial
  | some v =>
    obtain ⟨u, hu, rfl⟩ := hde.registers name v hv
    rw [Registers.get, Registers.get, hv, hu]
    exact ⟨rfl, hde⟩

theorem assign (name : String) (v : Word w) : Refines (Act.assign name v) (Act.assign name v) :=
  modify fun _ _ h => ⟨h.machine, h.registers.set name rfl⟩

theorem registers (names : List String) :
    Refines (w := w) (Act.registers names) (Act.registers names) := by
  induction names with
  | nil => exact pure []
  | cons name names ih => exact bind (register name) fun v => bind ih fun vs => pure (v :: vs)

theorem forget {x : Unit → Act w β} {y : Act w β} (h : Refines (x ()) y) :
    Refines (Act.forget >>= x) y := by
  intro d e hde
  refine h _ e ⟨hde.machine, fun name v hv => ?_⟩
  exact hde.registers name v (Registers.lookup_immediate hv).1

theorem rounds {x y : Act w (Option Label)} (h : Refines x y) (n : Nat) :
    ∀ k, Refines (Act.rounds x k n) (Act.rounds y k n) := by
  induction n with
  | zero => exact fun k => pure none
  | succ n ih =>
    intro k
    refine bind (check _) fun i => bind (assign "i" i) fun _ => bind h fun r => ?_
    cases r with
    | some label => exact pure (some label)
    | none => exact ih (k + 1)

end Act.Refines

open Act (Refines)

mutual

/-- An expression that is evaluated with care has the value that it has anyway. -/
theorem Expr.careful_refines : ∀ e : Expr w, Refines e.careful e.eval
  | .literal l => by
    have h : Refines (Act.check l.word >>= fun v => Act.refuse v.ref?.isSome >>= fun _ => pure v)
        (Act.check l.word >>= fun v => pure v) :=
      .bind (.check _) fun v => .refuse (.pure v)
    rw [bind_pure] at h
    exact h
  | .register name => .register name
  | .slot i => .op _
  | .result => .op _
  | .nullary c => .check _
  | .construct c fields => .bind (Expr.carefulList_refines fields) fun _ => .op _
  | .pair a b => .bind a.careful_refines fun _ => .bind b.careful_refines fun _ => .op _
  | .closure f captured =>
    .refuse (.bind (Expr.carefulList_refines captured) fun _ => .op _)
  | .extend e args =>
    .bind e.careful_refines fun _ => .bind (Expr.carefulList_refines args) fun _ => .op _
  | .field e i => .bind e.careful_refines fun _ => .look fun _ => .refuse (.op _)
  | .fst e => .bind e.careful_refines fun _ => .op _
  | .snd e => .bind e.careful_refines fun _ => .op _
  | .equal a b =>
    .bind a.careful_refines fun _ => .bind b.careful_refines fun _ =>
      .bind (.op _) fun _ => .pure _
  | .arith op a b => by
    refine .bind a.careful_refines fun v => .bind b.careful_refines fun u => ?_
    cases op.apply v u with
    | ok x => exact .pure x
    | error e => exact .throw e

theorem Expr.carefulList_refines : ∀ es : List (Expr w),
    Refines (Expr.carefulList es) (Expr.evalList es)
  | [] => .pure []
  | e :: es =>
    .bind e.careful_refines fun _ => .bind (Expr.carefulList_refines es) fun _ => .pure _

end

/-- A question that is asked with care has the answer that it has anyway. -/
theorem Probe.careful_refines (p : Probe w) : Refines p.careful p.ask := by
  cases p with
  | eval e => exact .bind e.careful_refines fun _ => .pure _
  | render e => exact .bind e.careful_refines fun _ => .bind (.op _) fun _ => .pure _
  | headerOf e => exact .bind e.careful_refines fun _ => .bind (.heap _) fun _ => .pure _
  | view e => exact .bind e.careful_refines fun _ => .bind (.op _) fun _ => .pure _
  | same a b =>
    exact .bind a.careful_refines fun _ => .bind b.careful_refines fun _ =>
      .bind (.op _) fun _ => .pure _
  | block e =>
    exact .bind e.careful_refines fun _ => .bind (.check _) fun _ => .bind (.heap _) fun _ => .pure _
  | route c e =>
    refine .refuse (.bind e.careful_refines fun v => .get fun m r q => ?_)
    cases c.select m.heap v with
    | ok b => exact .pure _
    | error e => exact .throw e
  | frameLength => exact .get fun m r q => .bind (.check _) fun _ => .pure _
  | stack => exact .get fun m r q => .pure _
  | peek n => exact .get fun m r q => .bind (.check _) fun _ => .pure _
  | allocWords c => exact .pure _
  | names uid => exact .get fun m r q => .pure _
  | stats => exact .get fun m r q => .pure _

/-- A transfer that is made with care goes where it goes anyway. -/
theorem Transfer.careful_refines (t : Transfer w) : Refines t.careful t.exec := by
  cases t with
  | jump label => exact .pure label
  | ret e => exact .bind e.careful_refines fun _ => .op _
  | call callee args k => exact .bind (Expr.carefulList_refines args) fun _ => .op _
  | tailCall callee args => exact .bind (Expr.carefulList_refines args) fun _ => .op _
  | branch e ifTrue ifFalse => exact .bind e.careful_refines fun _ => .op _
  | select c e => exact .refuse (.bind e.careful_refines fun _ => .op _)
  | callClosure e args k =>
    exact .bind e.careful_refines fun _ => .bind (Expr.carefulList_refines args) fun _ => .op _
  | tailCallClosure e args =>
    exact .bind e.careful_refines fun _ => .bind (Expr.carefulList_refines args) fun _ => .op _
  | apply e args k =>
    exact .bind e.careful_refines fun _ => .bind (Expr.carefulList_refines args) fun _ => .op _
  | tailApply e args =>
    exact .bind e.careful_refines fun _ => .bind (Expr.carefulList_refines args) fun _ => .op _
  | fail e => exact .bind e.careful_refines fun _ => .op _

theorem Stmt.reserveCareful_refines (words : Nat) (names : List String) :
    Refines (w := w) (Stmt.reserveCareful words names) (Stmt.reserveSaving words names) := by
  refine .bind (.registers names) fun temps => .bind (.op _) fun r => .forget ?_
  refine .bind (.modify fun d e h => ⟨h.machine, ?_⟩) fun _ => ?_
  · exact h.registers.setAll (List.forall₂_same.mpr fun _ _ => rfl) names
  · cases r.2 with
    | none => exact .pure ()
    | some s => exact .throw _

mutual

/-- A statement that is carried out with care does what it does anyway. -/
theorem Stmt.careful_refines : ∀ s : Stmt w, Refines s.careful s.exec
  | .assign name e => .bind e.careful_refines fun v => .bind (.assign name v) fun _ => .pure none
  | .push e => .bind e.careful_refines fun _ => .bind (.op _) fun _ => .pure none
  | .setSlot i e => .bind e.careful_refines fun _ => .bind (.op _) fun _ => .pure none
  | .trace e => .bind e.careful_refines fun _ => .bind (.op _) fun _ => .pure none
  | .prealloc words => .bind (.op _) fun _ => .forget (.pure none)
  | .preallocSaving words names =>
    .bind (Stmt.reserveCareful_refines words names) fun _ => .pure none
  | .dumpStack => .bind (.op _) fun _ => .pure none
  | .cond e ifTrue ifFalse => by
    refine .bind e.careful_refines fun v => .bind (.check _) fun b => ?_
    cases b with
    | true => exact Stmt.carefulList_refines ifTrue
    | false => exact Stmt.carefulList_refines ifFalse
  | .rounds n body => .rounds (Stmt.carefulList_refines body) n 0
  | .probe p =>
    .bind p.careful_refines fun a =>
      .bind (.modify fun d e h => ⟨by rw [h.machine], h.registers⟩) fun _ => .pure none
  | .transfer t => .bind t.careful_refines fun label => .pure (some label)

theorem Stmt.carefulList_refines : ∀ ss : List (Stmt w),
    Refines (Stmt.carefulList ss) (Stmt.execList ss)
  | [] => .pure none
  | s :: ss => by
    refine .bind s.careful_refines fun r => ?_
    cases r with
    | some label => exact .pure (some label)
    | none => exact Stmt.carefulList_refines ss

end

/-- What a body's outcome is to the machine: the label it found, or a trap when it found none. -/
def Outcome.finish (r : Outcome w (Desk w) (Option Label)) : Outcome w (Machine w) Label :=
  match r with
  | .ok (some label) d => .ok label d.machine
  | .ok none d => .error (.trap .bounds) d.machine
  | .error e d => .error e d.machine

/-- What holds of the desks after a body holds of the machines when it is finished. -/
theorem Agree.finish {T : Prop} {E : Machine w → Machine w → Prop}
    {P : Label → Machine w → Machine w → Prop} {r q : Outcome w (Desk w) (Option Label)}
    (h : Agree T (fun d e => E d.machine e.machine)
      (fun a b d e => a = b ∧ ∀ label, a = some label → P label d.machine e.machine) r q) :
    Agree T E (fun a b m n => a = b ∧ P a m n) r.finish q.finish := by
  cases r with
  | error f d =>
    cases f with
    | trap t => trivial
    | error f => rcases q with ⟨_ | _, _⟩ | ⟨_ | _ | _, _⟩ <;> first | exact h | exact h.elim
    | unfinished => rcases q with ⟨_ | _, _⟩ | ⟨_ | _ | _, _⟩ <;> first | exact h | exact h.elim
  | ok a d =>
    cases a with
    | none => trivial
    | some label =>
      cases q with
      | ok b e =>
        obtain ⟨rfl, hP⟩ := h
        exact ⟨rfl, hP label rfl⟩
      | error f e => cases f <;> exact h

/-- A careful body that does not trap does what the body does. -/
theorem Body.careful_agrees (body : Body w) (m : Machine w) :
    Agree False Eq (fun a b m n => a = b ∧ m = n) (body.careful m) (body.code m) := by
  have h := Stmt.carefulList_refines body ⟨m, {}⟩ ⟨m, {}⟩ ⟨rfl, fun _ _ h => ⟨_, h, rfl⟩⟩
  exact Agree.finish (P := fun _ m n => m = n)
    (h.mono fun a b d e ⟨hab, hde⟩ => ⟨hab, fun _ _ => hde.machine⟩)

end Trampoline
