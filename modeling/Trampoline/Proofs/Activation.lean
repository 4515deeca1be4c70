import Trampoline.Proofs.Discipline

/-!
The stack over whole runs.

A run enters one label after the other. At each of them the stack is a chain of frames and pending
blocks down to the bottom, so a frame can always be left, a pending block is always found, and the
end of the program finds the stack empty. Code changes no slot below the header of its frame, but
for the moves of a collection.
-/

namespace Trampoline

variable {w : Width}

theorem Agree.of_ok {σ τ α β : Type} {E : σ → τ → Prop} {Q : α → β → σ → τ → Prop} {a : α} {s : σ}
    {q : Outcome w τ β} (h : Agree False E Q (.ok a s) q) : ∃ b t, q = .ok b t ∧ Q a b s t := by
  cases q with
  | ok b t => exact ⟨b, t, rfl, h⟩
  | error e t => cases e <;> exact h.elim

/-! ### In the middle of code -/

/-- Machines that statements, carried out with care from a desk, come through before a transfer is
made, and the words held there: between statements, when the operands of the transfer have been
evaluated, and when a closure has been extended in place of a frame that is about to be left. -/
inductive Stmt.Passes : List (Stmt w) → Desk w → Machine w → List (Word w) → Prop where
  | here {ss : List (Stmt w)} {d : Desk w} : Passes ss d d.machine []
  | next {s : Stmt w} {ss : List (Stmt w)} {d d' : Desk w} {m : Machine w} {held : List (Word w)} :
      s.careful d = .ok none d' → Passes ss d' m held → Passes (s :: ss) d m held
  | ifTrue {e : Expr w} {as bs ss : List (Stmt w)} {d d' : Desk w} {v : Word w} {m : Machine w}
      {held : List (Word w)} :
      e.careful d = .ok v d' → v.isTrue = .ok true → Passes as d' m held →
      Passes (.cond e as bs :: ss) d m held
  | ifFalse {e : Expr w} {as bs ss : List (Stmt w)} {d d' : Desk w} {v : Word w} {m : Machine w}
      {held : List (Word w)} :
      e.careful d = .ok v d' → v.isTrue = .ok false → Passes bs d' m held →
      Passes (.cond e as bs :: ss) d m held
  | round {n k : Nat} {body ss : List (Stmt w)} {d d' : Desk w} {i : Word w} {m : Machine w}
      {held : List (Word w)} :
      k < n → (Stmt.rounds k body).careful d = .ok none d' → Word.int k = .ok i →
      Passes body { d' with registers := d'.registers.set "i" i } m held →
      Passes (.rounds n body :: ss) d m held
  | operands {t : Transfer w} {ss : List (Stmt w)} {d d' : Desk w} {vs : List (Word w)} :
      Expr.carefulList t.operands d = .ok vs d' → Passes (.transfer t :: ss) d d'.machine vs
  | extended {closure : Expr w} {args : List (Expr w)} {ss : List (Stmt w)} {d d' : Desk w}
      {cl v : Word w} {vs : List (Word w)} {m : Machine w} :
      Expr.carefulList (closure :: args) d = .ok (cl :: vs) d' →
      Machine.extendSaving cl vs d'.machine = .ok v m →
      Passes (.transfer (.tailApply closure args) :: ss) d m [v]

section

variable {S : Scene w} {f : Nat} {W : Pairing} {d d' e : Desk w}

/-- A statement done with care on the left desk is done on the right one. -/
theorem Stmt.careful_goes (hkept : S.kept ≤ f) (s : Stmt w) (D : Desk.Twins S f W d e)
    (hs : Shadows d e) (h : s.careful d = .ok none d') :
    ∃ V e', Desk.Twins S f V d' e' ∧ Shadows d' e' := by
  have htwins := s.careful_twins hkept W d e D
  have hsame := s.careful_refines d e hs
  rw [h] at htwins hsame
  obtain ⟨_, e', he, rfl, hs'⟩ := hsame.of_ok
  rw [he] at htwins
  obtain ⟨V, D'⟩ := htwins.goes rfl
  exact ⟨V, e', D', hs'⟩

theorem Expr.careful_goes (x : Expr w) (D : Desk.Twins S f W d e) (hs : Shadows d e) {v : Word w}
    (h : x.careful d = .ok v d') : ∃ V e', Desk.Twins S f V d' e' ∧ Shadows d' e' := by
  have htwins := x.careful_twins W W (fun _ h => h) d e D
  have hsame := x.careful_refines d e hs
  rw [h] at htwins hsame
  obtain ⟨_, e', he, rfl, hs'⟩ := hsame.of_ok
  rw [he] at htwins
  obtain ⟨V, _, D', _⟩ := htwins
  exact ⟨V, e', D', hs'⟩

/-- Arguments that are evaluated with care lead to blocks that are there. -/
theorem Expr.carefulList_goes (xs : List (Expr w)) (D : Desk.Twins S f W d e) (hs : Shadows d e)
    {vs : List (Word w)} (h : Expr.carefulList xs d = .ok vs d') :
    ∃ V e', Desk.Twins S f V d' e' ∧ Shadows d' e' ∧
      List.Forall₂ (Word.Matched V.Links) vs vs := by
  have htwins := Expr.carefulList_twins xs W W (fun _ h => h) d e D
  have hsame := Expr.carefulList_refines xs d e hs
  rw [h] at htwins hsame
  obtain ⟨_, e', he, rfl, hs'⟩ := hsame.of_ok
  rw [he] at htwins
  obtain ⟨V, _, D', hvs⟩ := htwins
  exact ⟨V, e', D', hs', hvs⟩

/-- What is to be kept up to the frame pointer is kept at every point of the code. -/
theorem Stmt.Passes.twins {ss : List (Stmt w)} {c : Machine w} {held : List (Word w)}
    (h : Stmt.Passes ss d c held) (hkept : S.kept ≤ f) (D : Desk.Twins S f W d e)
    (hs : Shadows d e) :
    ∃ V c', Machine.Twins S f V c c' ∧ List.Forall₂ (Word.Matched V.Links) held held := by
  induction h generalizing W e with
  | here => exact ⟨W, _, D.machine, .nil⟩
  | next hstep _ ih =>
    obtain ⟨V, e', D', hs'⟩ := Stmt.careful_goes hkept _ D hs hstep
    exact ih D' hs'
  | ifTrue hv _ _ ih =>
    obtain ⟨V, e', D', hs'⟩ := Expr.careful_goes _ D hs hv
    exact ih D' hs'
  | ifFalse hv _ _ ih =>
    obtain ⟨V, e', D', hs'⟩ := Expr.careful_goes _ D hs hv
    exact ih D' hs'
  | round _ hrounds hi _ ih =>
    obtain ⟨V, e', D', hs'⟩ := Stmt.careful_goes hkept _ D hs hrounds
    have hnone := Word.ref?_int hi
    exact ih (e := { e' with registers := e'.registers.set "i" _ })
      ⟨D'.machine, D'.registers.set "i" (.refl_of_none hnone)⟩
      ⟨hs'.machine, hs'.registers.set "i" rfl⟩
  | operands hvs =>
    obtain ⟨V, e', D', _, hall⟩ := Expr.carefulList_goes _ D hs hvs
    exact ⟨V, _, D'.machine, hall⟩
  | extended hvs hextend =>
    obtain ⟨V, e', D', hs', hall⟩ := Expr.carefulList_goes _ D hs hvs
    cases hall with
    | cons hcl hargs =>
      have hagree := D'.machine.extendSaving hcl hargs
      rw [← hs'.machine, hextend] at hagree
      obtain ⟨_, V', M, hv⟩ := hagree
      exact ⟨V', _, M, .cons hv .nil⟩

end

namespace Machine

/-- A machine that a step at a label comes through in the code of the label, and the words held
there. -/
def Amid (p : Program (Body w)) (label : Label) (m c : Machine w) (held : List (Word w)) : Prop :=
  ∃ name maxAlloc body m₁, p.slot? label = some ⟨name, maxAlloc, some body⟩ ∧
    (record (.jumped name) >>= fun _ => provide maxAlloc) m = .ok () m₁ ∧
    Stmt.Passes body ⟨m₁, {}⟩ c held

/-- In the code of a label the frame stands as it did when the label was entered. -/
theorem Stands.passes {d : Nat} {k₀ : Label} {f₀ : Nat} {label : Label} {m c : Machine w}
    {held : List (Word w)} {p : Program (Body w)} (h : Stands d k₀ f₀ label m)
    (hd : d < m.slots.length) (hl : label.isReserved = false) (hc : Amid p label m c held) :
    c.fp = m.fp ∧ Preserves m.fp m c ∧ c.Sound held ∧ Stands d k₀ f₀ label c ∧
      d < c.slots.length := by
  obtain ⟨name, maxAlloc, body, m₁, _, hready, hpasses⟩ := hc
  obtain ⟨W, M, _⟩ := h.sound.twins h.fp_le
  have hagree := (M.setJournal (m.journal.record (.jumped name))
    (m.journal.record (.jumped name))).provide maxAlloc
  change provide maxAlloc { m with journal := m.journal.record (.jumped name) } = _ at hready
  rw [hready] at hagree
  obtain ⟨V, M₁⟩ := hagree
  have D : Desk.Twins (m.keeping m.fp) m.fp V ⟨m₁, {}⟩ ⟨m₁, {}⟩ := ⟨M₁, fun _ _ h => by cases h⟩
  obtain ⟨V', c', Mc, hheld⟩ := hpasses.twins (Nat.le_refl _) D ⟨rfl, fun _ v h => ⟨v, h, rfl⟩⟩
  exact ⟨Mc.fp, Mc.preserves, Mc.sound hheld, h.amid hd hl Mc⟩

/-! ### The labels that a run enters -/

section

variable (p : Program (Code w))

/-- From a label and a machine, steps lead to another label and machine, each of them from where
`live` holds. -/
inductive Goes (live : Label → Machine w → Prop) (l₀ : Label) (m₀ : Machine w) :
    Label → Machine w → Prop where
  | refl : Goes live l₀ m₀ l₀ m₀
  | step {label next : Label} {m m' : Machine w} : Goes live l₀ m₀ label m → live label m →
      m.steps + 1 < sizeRange → step p label m.ticked = .ok next m' → Goes live l₀ m₀ next m'

def follow (live : Label → Machine w → Prop) [∀ l m, Decidable (live l m)] (l₀ : Label)
    (m₀ : Machine w) : Nat → Option (Label × Machine w)
  | 0 => some (l₀, m₀)
  | n + 1 =>
    match follow live l₀ m₀ n with
    | none => none
    | some (label, m) =>
      if live label m ∧ m.steps + 1 < sizeRange then
        match step p label m.ticked with
        | .ok next m' => some (next, m')
        | .error _ _ => none
      else none

def running (label : Label) (_ : Machine w) : Prop := label ≠ .programEnd

instance (label : Label) (m : Machine w) : Decidable (running label m) :=
  inferInstanceAs (Decidable (label ≠ .programEnd))

/-- The labels that a run on a machine comes to, and the machine at each of them. -/
def Visits (m₀ : Machine w) (label : Label) (m : Machine w) : Prop :=
  ∃ l₁ m₁, start p m₀ = .ok l₁ m₁ ∧ Goes p running l₁ m₁ label m

variable {p} {live : Label → Machine w → Prop} {m₀ m : Machine w} {l₀ label : Label}

/-- What `follow` finds are steps that can be taken. -/
theorem goes_of_follow [∀ l m, Decidable (live l m)] {n : Nat}
    (h : follow p live l₀ m₀ n = some (label, m)) : Goes p live l₀ m₀ label m := by
  induction n generalizing label m with
  | zero => cases h; exact .refl
  | succ n ih =>
    unfold follow at h
    split at h
    · cases h
    · next l m₁ hn =>
      split at h
      · next hlive =>
        split at h
        · next hstep =>
          cases h
          exact .step (ih hn) hlive.1 hlive.2 hstep
        · cases h
      · cases h

/-- Steps can be followed for what is seen of the label and the machine they lead to. -/
theorem exists_goes_of_follow [∀ l m, Decidable (live l m)] {n : Nat} {α : Type}
    {f : Label × Machine w → α} {a : α} (h : (follow p live l₀ m₀ n).map f = some a) :
    ∃ label m, Goes p live l₀ m₀ label m ∧ f (label, m) = a := by
  obtain ⟨⟨label, m⟩, hm, ha⟩ := Option.map_eq_some_iff.mp h
  exact ⟨label, m, goes_of_follow hm, ha⟩

/-- The loop of a run goes from label to label. -/
theorem Goes.loop_eq (h : Goes p running l₀ m₀ label m) :
    ∃ n, ∀ fuel, loop p (n + fuel) l₀ m₀ = loop p fuel label m := by
  induction h with
  | refl => exact ⟨0, fun fuel => by rw [Nat.zero_add]⟩
  | @step label next m m' _ hl hcount hstep ih =>
    obtain ⟨n, hn⟩ := ih
    refine ⟨n + 1, fun fuel => ?_⟩
    have hloop : loop p (fuel + 1) label m = loop p fuel next m' := by
      simp only [loop, if_neg hl, if_neg (Nat.not_le.mpr hcount), hstep]
    rw [Nat.add_right_comm, Nat.add_assoc, hn (fuel + 1), hloop]

/-- A run with enough fuel goes on from everywhere it comes to. -/
theorem Visits.run_eq (h : Visits p m₀ label m) :
    ∃ n, ∀ fuel, run p (n + fuel) m₀ = (loop p fuel label >>= fun _ => conclude) m := by
  obtain ⟨l₁, m₁, hstart, hgoes⟩ := h
  obtain ⟨n, hn⟩ := hgoes.loop_eq
  refine ⟨n, fun fuel => ?_⟩
  rw [run, bind_of_ok hstart]
  simp only [bind, EStateM.bind, hn fuel]

end

section

variable {p : Program (Body w)} {m₀ m : Machine w} {label : Label} {s : MachineSettings}

/-- Steps with care that do not trap are the steps themselves. -/
theorem Goes.code {live : Label → Machine w → Prop} {l₀ : Label}
    (h : Goes (p.map Body.careful) live l₀ m₀ label m) :
    Goes (p.map Body.code) live l₀ m₀ label m := by
  induction h with
  | refl => exact .refl
  | @step label next m m' _ hlive hcount hstep ih =>
    refine .step ih hlive hcount ?_
    obtain ⟨t, n, ht⟩ | heq := step_careful p label m.ticked
    · rw [ht] at hstep
      cases hstep
    · exact heq ▸ hstep

/-- A run with care comes to where the run itself comes to. -/
theorem Visits.code (h : Visits (p.map Body.careful) m₀ label m) :
    Visits (p.map Body.code) m₀ label m := by
  obtain ⟨l₁, m₁, hstart, hgoes⟩ := h
  refine ⟨l₁, m₁, ?_, hgoes.code⟩
  have hsame : start (p.map Body.careful) = start (p.map Body.code) := by
    unfold start recordNamed
    rw [Program.labelName?_map, Program.labelName?_map]
    rfl
  exact hsame ▸ hstart

theorem Stands.ticked {d : Nat} {k₀ : Label} {f₀ : Nat} (h : Stands d k₀ f₀ label m) :
    Stands d k₀ f₀ label m.ticked :=
  ⟨h.sound, h.chain, h.base, h.limit⟩

/-- Steps from above the base keep the chain, and the base under it. -/
theorem Stands.goes {d : Nat} {k₀ : Label} {f₀ : Nat} {live : Label → Machine w → Prop} {l₀ : Label}
    (hp : p.Directed) (hlive : ∀ l n, Stands d k₀ f₀ l n → live l n → d < n.slots.length)
    (h₀ : Stands d k₀ f₀ l₀ m₀) (hd : d ≤ m₀.slots.length)
    (h : Goes (p.map Body.careful) live l₀ m₀ label m) :
    Stands d k₀ f₀ label m ∧ Preserves d m₀ m := by
  induction h with
  | refl =>
    obtain ⟨W, M, _⟩ := h₀.sound.twins hd
    exact ⟨h₀, M.preserves⟩
  | @step label next m m' _ hl _ hstep ih =>
    obtain ⟨hm, hkept⟩ := ih
    have hd' := hlive label m hm hl
    obtain ⟨hm', hkept'⟩ := hm.ticked.step hp hd' hstep
    exact ⟨hm', hkept.trans hkept'⟩

/-- The entry frame stands alone on the stack. -/
theorem stands_start {q : Program (Code w)} (H : History s m₀)
    (hentry : q.entry.isReserved = false) (h : start q m₀ = .ok label m) :
    Stands 0 .programEnd 0 label m := by
  obtain ⟨_, m₁, hreset, h⟩ := of_bind_eq_ok h
  cases hreset
  obtain ⟨_, m₂, hrecord, h⟩ := of_bind_eq_ok h
  obtain ⟨t, m', ht⟩ | ⟨j, hj⟩ := recordNamed_cases q q.entry .runStarted (m₀.reset q.names)
  · rw [ht] at hrecord
    cases hrecord
  rw [hj] at hrecord
  cases hrecord
  have hsound : Sound { m₀.reset q.names with journal := j } [] := by
    refine ⟨[], Heap.Twins.nil H.made.heap H.made.heap rfl, ?_⟩
    rintro v (_ | ⟨_, hv⟩) r hr
    · rw [show ({ m₀.reset q.names with journal := j } : Machine w).result = .unitWord from rfl,
        Word.ref?_unitWord] at hr
      cases hr
    · cases hv
  obtain ⟨W, M, _⟩ := hsound.twins (Nat.zero_le _)
  have hcall := M.call q.entry .programEnd .nil
  rw [h] at hcall
  obtain ⟨_, f, V, M'⟩ := hcall
  have C := Chain.call (m := { m₀.reset q.names with journal := j }) (.base rfl) (Nat.le_refl 0)
    H.linkable hentry h
  refine ⟨M'.sound .nil, C, Nat.le_refl _, ?_⟩
  rw [M'.carried.2.1]
  exact H.linkable

theorem Stands.above {label : Label} (h : Stands 0 .programEnd 0 label m)
    (hl : label ≠ .programEnd) : 0 < m.slots.length := by
  by_contra hempty
  exact hl (h.chain.at_base (by omega)).1

/-- Wherever a run with care comes to, its stack is a chain down to the bottom. -/
theorem Visits.stands (H : History s m₀) (hentry : p.entry.isReserved = false) (hp : p.Directed)
    (h : Visits (p.map Body.careful) m₀ label m) : Stands 0 .programEnd 0 label m := by
  obtain ⟨l₁, m₁, hstart, hgoes⟩ := h
  have h₁ := stands_start H hentry hstart
  exact (h₁.goes hp (fun _ _ hn hl => hn.above hl) (Nat.zero_le _) hgoes).1

/-- At every label that a run comes to, the stack is a chain of frames and pending blocks, with
nothing below it. So the end of the program finds the stack empty, a pending block is found where
one is to be applied, and the frame can be left at every point of the code of a label. Code changes
no slot below the header of its frame, and the application of a pending block no slot below the
block, but for the moves of a collection. -/
theorem run_keeps_frames (H : History s m₀) (p : Program (Body w))
    (hentry : p.entry.isReserved = false) (hp : p.Directed)
    (h : Visits (p.map Body.careful) m₀ label m) :
    (∃ n, ∀ fuel, run (p.map Body.code) (n + fuel) m₀ =
      (loop (p.map Body.code) fuel label >>= fun _ => conclude) m) ∧
    Chain 0 .programEnd 0 label m.fp m.slots ∧
    (label = .programEnd → m.slots = [] ∧ m.fp = 0) ∧
    (label = .applyPending → ∃ k below continuation args count,
      m.slots = below ++ continuation :: (args ++ [count]) ∧
      applyPending m.ticked = apply m.result args k (m.ticked.dropped below.length) ∧
      ∀ next m', applyPending m.ticked = .ok next m' → Preserves below.length m m') ∧
    (label.isReserved = false →
      (∀ c held, Amid p label m.ticked c held → c.fp = m.fp ∧ Preserves m.fp m c ∧
        ∃ k g, Chain 0 .programEnd 0 k g (c.slots.take (c.fp - 2)) ∧
          leaveFrame c = .ok k { c.dropped (c.fp - 2) with fp := g } ∧
          ∀ v, ret v c = .ok k { c.dropped (c.fp - 2) with fp := g, result := v }) ∧
      ∀ next m', step (p.map Body.careful) label m.ticked = .ok next m' →
        Preserves (m.fp - 2) m m') := by
  have hm := h.stands H hentry hp
  refine ⟨h.code.run_eq, hm.chain, ?_, ?_, ?_⟩
  · rintro rfl
    have hempty : ¬ 0 < m.slots.length := fun hd =>
      absurd (hm.chain.not_reserved hd (by decide)) (by decide)
    exact ⟨List.length_eq_zero_iff.mp (by omega), (hm.chain.at_base (by omega)).2⟩
  · rintro rfl
    obtain ⟨k, below, a, args, count, C, ha, hne, hc, hslots⟩ :=
      hm.chain.of_applyPending (hm.above (by decide))
    refine ⟨k, below, a, args, count, hslots, applyPending_of_pending ha hc hslots, ?_⟩
    -- seen from the block, the chain ends right below it
    have hblock : Stands below.length k m.fp .applyPending m :=
      ⟨hm.sound, hslots ▸ .pending (.base rfl) ha hne hc, C.fp_le (Nat.le_refl _), hm.limit⟩
    have hd : below.length < m.slots.length := by simp [hslots]
    exact fun next m' hstep => (hblock.ticked.step_pending hd hstep).2
  · intro hl
    have hcode : label ≠ .applyPending := by rintro rfl; cases hl
    have hd : 0 < m.slots.length := hm.above (by rintro rfl; cases hl)
    refine ⟨fun c held hc => ?_, fun next m' hstep => (hm.ticked.step_code hp hd hcode hstep).2⟩
    obtain ⟨hfp, hkept, _, hstands, hd'⟩ := hm.ticked.passes hd hl hc
    obtain ⟨k, g, below, _, _, _, C, ha, hb, hbase, hslots⟩ :=
      hstands.chain.of_not_reserved hd' hl
    have hbelow : c.fp - 2 = below.length := by omega
    refine ⟨hfp, hkept, k, g, ?_, ?_, fun v => ?_⟩
    · rw [hbelow, hslots, List.take_left]
      exact C
    · rw [hbelow]
      exact leaveFrame_of_frame ha hb hbase hslots
    · rw [hbelow]
      exact leaveFrame_of_frame (m := { c with result := v }) ha hb hbase hslots

end

def ample : MachineSettings := ⟨⟨64, 64, 1.0⟩, 64⟩

theorem history_ample : History ample (blank ample : Machine .bits64) :=
  .fresh (create_blank (by decide +kernel) (by decide))

/-- A function of one argument, applied to two: it answers the identity, which the second argument
is then applied to. -/
def currying : Program (Body .bits64) :=
  let constant : Body .bits64 := [.transfer (.ret (.closure ⟨9, ⟨3⟩, 1, 0⟩ []))]
  let identity : Body .bits64 := [.transfer (.ret (.slot 0))]
  let main : Body .bits64 :=
    [.transfer (.apply (.closure ⟨8, ⟨2⟩, 1, 3⟩ []) [.literal (.int 1), .literal (.int 2)] ⟨5⟩)]
  let after : Body .bits64 := [.transfer (.ret .result)]
  { slots := #[{ name := "program_end" }, { name := "apply_pending" },
      { name := "constant", maxAlloc := 3, code := some constant },
      { name := "identity", code := some identity },
      { name := "main", maxAlloc := 3, code := some main },
      { name := "after", code := some after }]
    entry := ⟨4⟩
    names := .builtin }

def opening : Machine .bits64 := Outcome.state (start (currying.map Body.careful) (blank ample))

/-- Where two steps lead to: the function has returned, and a pending block is on the stack. -/
theorem run_keeps_frames_currying :
    currying.entry.isReserved = false ∧ currying.Directed ∧
    ∃ m, Visits (currying.map Body.careful) (blank ample) .applyPending m ∧
      Chain 0 .programEnd 0 .applyPending m.fp m.slots ∧
      ∃ k below continuation args count, m.slots = below ++ continuation :: (args ++ [count]) ∧
        applyPending m.ticked = apply m.result args k (m.ticked.dropped below.length) := by
  have hentry : currying.entry.isReserved = false := by decide
  have hdirected : currying.Directed := by decide +kernel
  have hstart : start (currying.map Body.careful) (blank ample) = .ok ⟨4⟩ opening :=
    Outcome.eq_ok (by decide +kernel)
  have hlabel : (follow (currying.map Body.careful) running ⟨4⟩ opening 2).map (·.1) =
      some .applyPending := by decide +kernel
  obtain ⟨_, m, hgoes, rfl⟩ := exists_goes_of_follow hlabel
  have hvisits : Visits (currying.map Body.careful) (blank ample) .applyPending m :=
    ⟨⟨4⟩, opening, hstart, hgoes⟩
  obtain ⟨_, hchain, _, hpending, _⟩ :=
    run_keeps_frames history_ample currying hentry hdirected hvisits
  obtain ⟨k, below, a, args, count, hslots, happly, _⟩ := hpending rfl
  exact ⟨hentry, hdirected, m, hvisits, hchain, k, below, a, args, count, hslots, happly⟩

/-- Code that keeps a closure in a register across a checkpoint at which nothing is live. The
reference then points at the arity of another closure. Read as a header it says that no arguments are
held, and what that closure holds is read as an entry, which is the end of the program, and as an
arity. -/
def dangling : Program (Body .bits64) :=
  let zero : Expr .bits64 := .literal (.int 0)
  let one : Body .bits64 := [.transfer (.ret (.literal (.int 1)))]
  let idle : Body .bits64 := [.transfer (.ret zero)]
  let main : Body .bits64 :=
    [.assign "p" (.pair zero zero), .assign "a" (.closure ⟨8, ⟨2⟩, 0, 0⟩ []), .prealloc 60,
      .assign "c" (.closure ⟨9, ⟨3⟩, 7, 0⟩ [zero, zero]),
      .transfer (.callClosure (.register "a") [] ⟨5⟩)]
  let after : Body .bits64 := [.transfer (.ret .result)]
  { slots := #[{ name := "program_end" }, { name := "apply_pending" },
      { name := "f", code := some one }, { name := "g", code := some idle },
      { name := "main", maxAlloc := 5, code := some main }, { name := "after", code := some after }]
    entry := ⟨4⟩
    names := .builtin }

/-- A function of one argument, applied to two, which applies another function of one argument to two
in its place. -/
def piling : Program (Body .bits64) :=
  let int (n : Int) : Expr .bits64 := .literal (.int n)
  let outer : Body .bits64 :=
    [.transfer (.tailApply (.closure ⟨9, ⟨3⟩, 1, 0⟩ []) [int 1, int 2])]
  let inner : Body .bits64 := [.transfer (.ret (.slot 0))]
  let main : Body .bits64 :=
    [.transfer (.apply (.closure ⟨8, ⟨2⟩, 1, 3⟩ []) [int 0, int 7] ⟨5⟩)]
  let after : Body .bits64 := [.transfer (.ret .result)]
  { slots := #[{ name := "program_end" }, { name := "apply_pending" },
      { name := "outer", maxAlloc := 3, code := some outer }, { name := "inner", code := some inner },
      { name := "main", maxAlloc := 3, code := some main }, { name := "after", code := some after }]
    entry := ⟨4⟩
    names := .builtin }

/-- Pending blocks lie not only beneath frames: after an application in tail position, with the entry
frame at the bottom, one lies on another one. And without care the end of the program can be reached
with frames on the stack. -/
theorem run_piles_blocks_and_leaves_stack :
    (piling.entry.isReserved = false ∧ piling.Directed ∧
      ∃ m, Visits (piling.map Body.careful) (blank ample) ⟨3⟩ m ∧
        m.slots = [0, 0] ++ [20, 28, 4] ++ [4, 8, 4] ++ [4, 8, 4]) ∧
    dangling.entry.isReserved = false ∧ dangling.Directed ∧
    ∃ m, run (dangling.map Body.code) 9 (blank ample) = .error (.trap .stackLeft) m ∧
      m.slots.length = 4 := by
  have hstart : start (piling.map Body.careful) (blank ample) = .ok ⟨4⟩ _ :=
    Outcome.eq_ok (by decide +kernel)
  have hpiled : (follow (piling.map Body.careful) running ⟨4⟩
      (Outcome.state (start (piling.map Body.careful) (blank ample))) 2).map
      (fun r => (r.1, r.2.slots)) =
      some (⟨3⟩, [0, 0] ++ [20, 28, 4] ++ [4, 8, 4] ++ [4, 8, 4]) := by decide +kernel
  obtain ⟨_, m, hgoes, hboth⟩ := exists_goes_of_follow hpiled
  obtain ⟨rfl, hslots⟩ := Prod.mk.inj hboth
  exact ⟨⟨by decide, by decide +kernel, m, ⟨_, _, hstart, hgoes⟩, hslots⟩, by decide,
    by decide +kernel, _, Outcome.eq_trap (by decide +kernel), by decide +kernel⟩

end Machine

end Trampoline
