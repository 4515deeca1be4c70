import Trampoline.Proofs.Bodies

/-!
Runs on twin machines.

A run with care that does not trap is the run itself, and a run with care on one machine goes like
the run on a twin. Both facts are carried from one step to the loop by induction on the fuel.
-/

namespace Trampoline

variable {w : Width}

def Program.transfers (p : Program (Body w)) : List (Transfer w) :=
  p.slots.toList.flatMap fun s => (s.code.map Stmt.transfersList).getD []

theorem Program.transfers_of_slot {p : Program (Body w)} {l : Label} {s : Slot (Body w)} {body : Body w}
    (hs : p.slot? l = some s) (hc : s.code = some body) :
    Stmt.transfersList body ⊆ p.transfers := by
  intro t ht
  have hmem : s ∈ p.slots.toList := by
    rw [slot?] at hs
    exact Array.mem_toList_iff.mpr (Array.mem_of_getElem? hs)
  refine List.mem_flatMap.mpr ⟨s, hmem, ?_⟩
  rw [hc]
  exact ht

/-! ### Runs with care -/

section

variable {α β : Type} {x y : Op w α} {f g : α → Op w β} {m : Machine w}

/-- What is true of two computations, that each traps or is the other one, is true of them in a row.
-/
theorem traps_or_eq_bind (h : Traps (x m) ∨ x m = y m)
    (hf : ∀ a n, Traps (f a n) ∨ f a n = g a n) :
    Traps ((x >>= f) m) ∨ (x >>= f) m = (y >>= g) m := by
  obtain ⟨t, n, ht⟩ | heq := h
  · exact .inl ⟨t, n, bind_of_error ht⟩
  · cases hy : y m with
    | ok a n =>
      rw [bind_of_ok (heq.trans hy), bind_of_ok hy]
      exact hf a n
    | error e n =>
      rw [bind_of_error (heq.trans hy), bind_of_error hy]
      exact .inr rfl

end

namespace Machine

def provide (words : Nat) : Op w Unit := if 0 < words then prealloc words else pure ()

theorem step_applyPending (p : Program (Code w)) : step p .applyPending = applyPending := if_pos rfl

theorem step_of_slot {p : Program (Code w)} {label : Label} (hl : label ≠ .applyPending)
    {name : String} {maxAlloc : Nat} {code : Code w}
    (hs : p.slot? label = some ⟨name, maxAlloc, some code⟩) :
    step p label = record (.jumped name) >>= fun _ => provide maxAlloc >>= fun _ => code := by
  unfold step provide
  rw [if_neg hl, hs]
  by_cases h0 : 0 < maxAlloc <;> simp [h0]

variable (p : Program (Body w))

/-- A step that is made with care traps, or is the step itself. -/
theorem step_careful (label : Label) (m : Machine w) :
    Traps (step (p.map Body.careful) label m) ∨
      step (p.map Body.careful) label m = step (p.map Body.code) label m := by
  by_cases hl : label = .applyPending
  · unfold step
    rw [if_pos hl, if_pos hl]
    exact .inr rfl
  · have hcareful := p.slot?_map Body.careful label
    have hcode := p.slot?_map Body.code label
    match hs : p.slot? label with
    | none =>
      unfold step
      rw [if_neg hl, if_neg hl, hcareful, hcode, hs]
      exact .inr rfl
    | some ⟨name, _, none⟩ =>
      unfold step
      rw [if_neg hl, if_neg hl, hcareful, hcode, hs]
      exact .inr rfl
    | some ⟨name, maxAlloc, some body⟩ =>
      rw [hs] at hcareful hcode
      rw [step_of_slot hl hcareful, step_of_slot hl hcode]
      refine traps_or_eq_bind (.inr rfl) fun _ _ => traps_or_eq_bind (.inr rfl) fun _ n => ?_
      exact (body.careful_agrees n).traps_or_eq

theorem reportFailure_careful (e : RuntimeError) (label : Label) :
    reportFailure (p.map Body.careful) e label = reportFailure (p.map Body.code) e label := by
  unfold reportFailure recordNamed
  rw [Program.labelName?_map, Program.labelName?_map]

/-- So does a whole loop. By induction on the fuel. -/
theorem loop_careful (fuel : Nat) (label : Label) (m : Machine w) :
    Traps (loop (p.map Body.careful) fuel label m) ∨
      loop (p.map Body.careful) fuel label m = loop (p.map Body.code) fuel label m := by
  induction fuel generalizing label m with
  | zero =>
    unfold loop
    exact .inr rfl
  | succ fuel ih =>
    unfold loop
    by_cases hl : label = .programEnd
    · rw [if_pos hl, if_pos hl]
      exact .inr rfl
    · rw [if_neg hl, if_neg hl]
      by_cases hover : sizeRange ≤ m.steps + 1
      · rw [if_pos hover, if_pos hover]
        exact .inr rfl
      rw [if_neg hover, if_neg hover]
      obtain ⟨t, n, ht⟩ | heq := step_careful p label m.ticked
      · rw [ht]
        exact .inl ⟨t, n, rfl⟩
      · rw [heq]
        cases step (p.map Body.code) label m.ticked with
        | ok next n => exact ih next n
        | error e n =>
          right
          cases e with
          | error e => simp only [reportFailure_careful]
          | trap t => rfl
          | unfinished => rfl

/-- A run with care that does not trap is the run itself. -/
theorem run_careful (fuel : Nat) (m : Machine w) :
    Traps (run (p.map Body.careful) fuel m) ∨
      run (p.map Body.careful) fuel m = run (p.map Body.code) fuel m := by
  have hrecord : ∀ e : String → Event w,
      recordNamed (p.map Body.careful) p.entry e = recordNamed (p.map Body.code) p.entry e := by
    intro e
    unfold recordNamed
    rw [Program.labelName?_map, Program.labelName?_map]
  have hstart : start (p.map Body.careful) = start (p.map Body.code) := by
    unfold start
    exact congrArg _ (funext fun _ => congrArg (· >>= _) (hrecord _))
  refine traps_or_eq_bind (.inr (congrFun hstart m)) fun entry n => ?_
  exact traps_or_eq_bind (loop_careful p fuel entry n) fun _ _ => .inr rfl

end Machine

/-! ### Steps on twins -/

open Machine.Twins (Alike Arrives)

section

variable {S : Scene w} {f : Nat} {W : Pairing} {m n : Machine w} (p : Program (Body w))

/-- Twins that a transfer took to a label are twins there, if what is to be kept is below the frame
they came from. -/
theorem Reached.arrives {ts : List (Transfer w)} {label : Label} (hkept : S.kept ≤ f - 2)
    (h : Reached S f ts label m n) : Arrives S label label m n := by
  obtain ⟨t, _, ht, W, c, d, vs, us, M, hvs, hm, hn⟩ := h
  have hperform := t.perform_twins ht M hkept hvs
  rw [hm, hn] at hperform
  exact hperform

namespace Machine.Twins

theorem provide (M : Twins S f W m n) (words : Nat) :
    Alike S (fun _ _ m' n' => ∃ V, Twins S f V m' n') (Machine.provide words m)
      (Machine.provide words n) := by
  unfold Machine.provide
  split
  · exact (M.prealloc words).mono fun _ _ _ _ h => h.2
  · exact ⟨W, M⟩

/-- A step through the code of a label. -/
theorem step_code (M : Twins S f W m n) (hkept : S.kept ≤ f) {label : Label}
    (hl : label ≠ .applyPending) :
    Alike S (fun a b m' n' => a = b ∧ Reached S f p.transfers a m' n')
      (Machine.step (p.map Body.careful) label m) (Machine.step (p.map Body.code) label n) := by
  have hcareful := p.slot?_map Body.careful label
  have hcode := p.slot?_map Body.code label
  match hs : p.slot? label with
  | none =>
    unfold Machine.step
    rw [if_neg hl, hcareful, hs]
    trivial
  | some ⟨name, _, none⟩ =>
    unfold Machine.step
    rw [if_neg hl, hcareful, hs]
    trivial
  | some ⟨name, maxAlloc, some body⟩ =>
    rw [hs] at hcareful hcode
    rw [step_of_slot hl hcareful, step_of_slot hl hcode]
    refine Agree.bind (Q := fun _ _ m' n' => Twins S f W m' n') (M.setJournal _ _) ?_
    intro _ _ m₁ n₁ M₁
    refine Agree.bind (M₁.provide maxAlloc) ?_
    rintro _ _ m₂ n₂ ⟨V, M₂⟩
    refine (body.careful_twins hkept M₂).mono ?_
    rintro a b m₃ n₃ ⟨hab, hreached⟩
    exact ⟨hab, hreached.mono (Program.transfers_of_slot hs rfl)⟩

/-- A step of twins takes them to one label. -/
theorem step (M : Twins S f W m n) {label : Label} (hkept : label ≠ .applyPending → S.kept ≤ f - 2)
    (hpending : label = .applyPending → PendingAbove m S.kept) :
    Alike S (Arrives S) (Machine.step (p.map Body.careful) label m)
      (Machine.step (p.map Body.code) label n) := by
  by_cases hl : label = .applyPending
  · unfold Machine.step
    rw [if_pos hl, if_pos hl]
    exact M.applyPending (hpending hl)
  · have hle := hkept hl
    refine (M.step_code p (by omega) hl).mono ?_
    rintro a _ m' n' ⟨rfl, hreached⟩
    exact hreached.arrives hle

/-- Whatever a journal records makes no difference to twins. -/
theorem recordNamed (M : Twins S f W m n) {q q' : Program (Code w)} {label label' : Label}
    (event event' : String → Event w) :
    Alike S (fun _ _ m' n' => Twins S f W m' n') (Machine.recordNamed q label event m)
      (Machine.recordNamed q' label' event' n) := by
  obtain ⟨t, m', ht⟩ | ⟨j, hj⟩ := recordNamed_cases q label event m
  · rw [ht]
    trivial
  · obtain ⟨t, n', ht⟩ | ⟨l, hl⟩ := recordNamed_cases q' label' event' n
    · rw [ht]
      exact Agree.trap_right trivial
    · rw [hj, hl]
      exact M.setJournal j l

/-- An error is reported, and ends the run. -/
theorem report {e : RuntimeError} (label : Label) (h : Outward S m n) :
    Alike S (fun _ _ _ _ => False)
      ((do Machine.reportFailure (p.map Body.careful) e label; fail e : Op w Unit) m)
      ((do Machine.reportFailure (p.map Body.code) e label; fail e : Op w Unit) n) := by
  obtain ⟨t, m', ht⟩ | ⟨j, hj⟩ := reportFailure_cases (p.map Body.careful) e label m
  · rw [bind_of_error ht]
    trivial
  · obtain ⟨t, n', ht⟩ | ⟨l, hl⟩ := reportFailure_cases (p.map Body.code) e label n
    · rw [bind_of_error ht]
      exact Agree.trap_right trivial
    · rw [bind_of_ok hj, bind_of_ok hl]
      exact ⟨rfl, h.setJournal j l⟩

/-- Runs of twins go from label to label together. -/
theorem loop (hS : S.kept = 0) (fuel : Nat) (label : Label) (M : Twins S f W m n) :
    Alike S (fun _ _ m' n' => ∃ f W, Twins S f W m' n')
      (Machine.loop (p.map Body.careful) fuel label m)
      (Machine.loop (p.map Body.code) fuel label n) := by
  induction fuel generalizing label m n f W with
  | zero =>
    unfold Machine.loop
    by_cases hl : label = .programEnd
    · rw [if_pos hl]
      exact ⟨f, W, M⟩
    · rw [if_neg hl]
      exact M.outward
  | succ fuel ih =>
    unfold Machine.loop
    by_cases hl : label = .programEnd
    · rw [if_pos hl, if_pos hl]
      exact ⟨f, W, M⟩
    · rw [if_neg hl, if_neg hl]
      by_cases hover : sizeRange ≤ m.steps + 1
      · rw [if_pos hover]
        trivial
      have hover' : ¬ sizeRange ≤ n.steps + 1 := M.outward.steps ▸ hover
      rw [if_neg hover, if_neg hover']
      have hpending : PendingAbove m.ticked S.kept := by
        intro v count _ _ h
        omega
      have hstep := M.ticked.step p (fun _ => by omega) (fun _ : label = _ => hpending)
      obtain ⟨t, m', ht⟩ | ⟨_, t, n', ht⟩ | ⟨next, _, m', n', hm, hn, rfl, g, V, M'⟩ |
        ⟨e, m', n', hm, hn, hout⟩ | ⟨m', n', hm, hn, hout⟩ := hstep.cases
      · rw [ht]
        trivial
      · rw [ht]
        exact Agree.trap_right trivial
      · rw [hm, hn]
        exact ih next M'
      · rw [hm, hn]
        exact (report p label hout).mono fun _ _ _ _ h => h.elim
      · rw [hm, hn]
        exact hout

end Machine.Twins

end

end Trampoline
