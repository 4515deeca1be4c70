import Trampoline.Proofs.Building
import Trampoline.Proofs.Holdings

/-!
Starting a program that has been built.

A builder makes sure that every label has code, but takes any label for the entry. A run goes from
the entry frame into the code of the entry if the entry is one of the labels that were given out.
From every other entry it comes to no code: the end of the program finds the entry frame on the
stack, a pending application finds no closure, and a label outside the table has no slot. Only the
report of the build looks the entry up, so what is recorded decides whether a label outside the
table is noticed before the run.
-/

namespace Trampoline

variable {w : Width}

/-- How a run ends that would start at a label without code. -/
def Label.deadEnd (entry : Label) : Fault w RuntimeError :=
  if entry = .programEnd then .trap .stackLeft
  else if entry = .applyPending then .error (.assertionFailed .closureApplied)
  else .trap .bounds

theorem Label.eq_of_isReserved {l : Label} (h : l.isReserved = true) :
    l = .programEnd ∨ l = .applyPending := by
  have hlt : l.index < 2 := by
    by_contra hge
    rw [(l.isReserved_eq_false_iff).mpr (by omega)] at h
    cases h
  rw [← l.ofNat_index]
  rcases Nat.lt_succ_iff_lt_or_eq.mp hlt with h | h
  · rw [Nat.lt_one_iff.mp h]
    exact .inl rfl
  · rw [h]
    exact .inr rfl

namespace Machine

variable {m : Machine w} {p : Program (Code w)} {name : String} {words : Nat} {code : Code w}

/-! ### Entries with code -/

/-- The first dispatch of a run comes to the code of the entry. -/
structure Begins (m : Machine w) (p : Program (Code w)) (words : Nat) (code : Code w) : Prop where
  /-- The entry frame is alone on the stack. -/
  opened : ∃ j, start p m = .ok p.entry ((m.hosting p).posed (entryPose m.heap) j)
  running : p.entry ≠ .programEnd
  /-- The first step reserves words and goes on with the code. -/
  entered : (m.hosting p).Continues (step p p.entry) (entryPose m.heap).tick
    (provide words >>= fun _ => code) (entryPose m.heap).tick
  /-- There is nothing live yet, so the words are to be had if the heap may hold so many. -/
  provided :
    (words ≤ m.heap.settings.maxWords ∧ ∃ h,
      (m.hosting p).Takes (provide words) (entryPose m.heap).tick () (entryPose h).tick) ∨
    (m.heap.settings.maxWords < words ∧
      (m.hosting p).Stops (provide words) (entryPose m.heap).tick
        (.error (.outOfMemory ⟨words, 0, m.heap.settings.maxWords⟩))) ∨
    (m.heap.settings.MayOvergrow w m.heap.capacity words ∧
      (m.hosting p).Stops (provide words) (entryPose m.heap).tick (.trap .bounds))

theorem moved_entryPose (ρ : Nat → Nat) (h h' : Heap w) :
    (entryPose h).tick.moved ρ h' = (entryPose h').tick := by
  simp [Pose.moved, Pose.tick, entryPose, Word.move_wrapInt, Word.move_unitWord]

/-- The first checkpoint of a run finds nothing live, so it grants its words if the maximum allows
for them. -/
theorem provide_entryPose (B : m.heap.Bounded) (words : Nat) :
    (words ≤ m.heap.settings.maxWords ∧ ∃ h,
      m.Takes (provide words) (entryPose m.heap).tick () (entryPose h).tick) ∨
    (m.heap.settings.maxWords < words ∧ m.Stops (provide words) (entryPose m.heap).tick
      (.error (.outOfMemory ⟨words, 0, m.heap.settings.maxWords⟩))) ∨
    (m.heap.settings.MayOvergrow w m.heap.capacity words ∧
      m.Stops (provide words) (entryPose m.heap).tick (.trap .bounds)) := by
  rcases Nat.eq_zero_or_pos words with rfl | hpos
  · exact .inl ⟨Nat.zero_le _, m.heap, takes_provide_zero⟩
  have hprovide : (provide words : Op w Unit) = prealloc words := if_pos hpos
  rw [hprovide]
  have hroots : ∀ v ∈ (entryPose m.heap).tick.result :: (entryPose m.heap).tick.slots,
      v.ref? = none := by
    simp [Pose.tick, Pose.slots, entryPose, Word.ref?_wrapInt, Word.ref?_unitWord]
  have H : (entryPose m.heap).tick.heap.Holdings _ [] := Heap.holdings_nil hroots
  obtain ⟨hlarge, htrap⟩ | ⟨hfull, hstop⟩ | ⟨hfits, h, ρ, htakes, _⟩ :=
    prealloc_cases (m := m) H B (.inl rfl) words
  · rw [Space.total_nil, Nat.zero_add] at hlarge
    exact .inr (.inr ⟨hlarge, htrap⟩)
  · rw [Space.total_nil, Nat.zero_add] at hfull
    exact .inr (.inl ⟨hfull, hstop⟩)
  · rw [Space.total_nil, Nat.zero_add] at hfits
    rw [moved_entryPose] at htakes
    exact .inl ⟨hfits, h, htakes⟩

theorem begins_of_slot (hl : p.entry.isReserved = false)
    (hs : p.slot? p.entry = some ⟨name, words, some code⟩) (B : m.heap.Bounded)
    (hroom : 2 ≤ m.maxStackWords) : m.Begins p words code where
  opened := start_posed (by rw [Program.labelName?, hs]; rfl) hroom
  running := by rintro h; rw [h] at hl; cases hl
  entered := by
    have hpending : p.entry ≠ .applyPending := by rintro h; rw [h] at hl; cases hl
    rw [step_of_slot hpending hs]
    exact (takes_record _).continues
  provided := provide_entryPose (m := m.hosting p) B words

/-! ### Entries without code -/

/-- A run goes to its end from the label that it starts at. -/
theorem run_of_start {l : Label} {n : Machine w} (h : start p m = .ok l n) (fuel : Nat) :
    run p fuel m = (loop p fuel l >>= fun _ => conclude) n := by
  rw [run, bind_of_ok h]

/-- The first step can be counted. -/
theorem not_overcounted_entryPose (h : Heap w) (j : Journal w) :
    ¬ sizeRange ≤ (m.posed (entryPose h) j).steps + 1 := by
  change ¬ sizeRange ≤ 0 + 1
  decide

/-- A run that starts at the end of the program leaves the entry frame on the stack. -/
theorem run_programEnd (hname : p.labelName? p.entry = some name) (hentry : p.entry = .programEnd)
    (hroom : 2 ≤ m.maxStackWords) :
    ∃ n, n.slots = [.wrapInt 0, .wrapInt 0] ∧
      ∀ fuel, run p fuel m = .error (.trap .stackLeft) n := by
  obtain ⟨j, hstart⟩ := start_posed hname hroom
  refine ⟨(m.hosting p).posed (entryPose m.heap) j, rfl, fun fuel => ?_⟩
  rw [run_of_start hstart, hentry]
  have hloop : ∀ n : Machine w, loop p fuel .programEnd n = .ok () n := by
    intro n
    cases fuel <;> rfl
  exact (bind_of_ok (hloop _)).trans rfl

/-- In the entry frame, a pending application takes the link for a count of no arguments, and then
finds no closure in the result. -/
theorem stops_applyPending :
    m.Stops applyPending (entryPose m.heap).tick (.error (.assertionFailed .closureApplied)) := by
  intro j
  have hzero : (Word.wrapInt 0 : Word w).toCodeAddress = .ok Label.programEnd.id :=
    Word.toCodeAddress_codeAddress size_zero
  have hcount : (Word.wrapInt 0 : Word w).toSmallInt = .ok (([] : List (Word w)).length : Int) :=
    Word.toSmallInt_size (n := 0) (w.digit_range (n := 0) (by decide)).2 size_zero
  have hslots : (m.posed (entryPose m.heap).tick j).slots =
      [] ++ .wrapInt 0 :: ([] ++ [.wrapInt 0]) := rfl
  rw [applyPending_of_pending hzero hcount hslots]
  have hview : ∀ n : Machine w, closureView .unitWord n =
      .error (.error (.assertionFailed .closureApplied)) n := by
    intro n
    have hnone : n.heap.closure? .unitWord = .ok none := by
      simp only [Heap.closure?, Word.ref?_unitWord]
      rfl
    change ((liftM (n.heap.closure? .unitWord) : Op w _) >>= _) n = _
    rw [liftM_bind_of_ok hnone]
    rfl
  exact ⟨_, bind_of_error (hview _)⟩

/-- A run that starts at a pending application finds no closure to apply. -/
theorem run_applyPending (hname : p.labelName? p.entry = some name)
    (hentry : p.entry = .applyPending) (hroom : 2 ≤ m.maxStackWords) :
    ∃ n, ∀ fuel, run p (fuel + 1) m = .error (.error (.assertionFailed .closureApplied)) n := by
  obtain ⟨j, hstart⟩ := start_posed hname hroom
  obtain ⟨n, hn⟩ := stops_applyPending (m := m.hosting p) j
  obtain ⟨j', hreport⟩ := reportFailure_of_name hname (.assertionFailed .closureApplied) n
  refine ⟨{ n with journal := j' }, fun fuel => ?_⟩
  have hend : p.entry ≠ .programEnd := by rw [hentry]; decide
  have hstep : step p p.entry ((m.hosting p).posed (entryPose m.heap) j).ticked =
      .error (.error (.assertionFailed .closureApplied)) n := by
    rw [hentry]
    exact hn
  have hloop : loop p (fuel + 1) p.entry ((m.hosting p).posed (entryPose m.heap) j) =
      .error (.error (.assertionFailed .closureApplied)) { n with journal := j' } := by
    simp only [loop, if_neg hend, if_neg (not_overcounted_entryPose m.heap j), hstep]
    exact bind_of_ok hreport
  rw [run_of_start hstart, bind_of_error hloop]

theorem recordNamed_of_none {l : Label} (hname : p.labelName? l = none) (event : String → Event w)
    (n : Machine w) :
    recordNamed p l event n =
      if n.journal.records .debug then .error (.trap .bounds) n else .ok () n := by
  change (ite _ _ _ : Op w Unit) n = _
  split
  · rw [hname]
    rfl
  · rfl

/-- A label outside the table is noticed in the report of the start, or else in the first step. -/
theorem run_of_slot?_eq_none (hs : p.slot? p.entry = none) (hl : p.entry.isReserved = false)
    (hroom : 2 ≤ m.maxStackWords) :
    ∃ n, ∀ fuel, run p (fuel + 1) m = .error (.trap .bounds) n := by
  have hend : p.entry ≠ .programEnd := by rintro h; rw [h] at hl; cases hl
  have hpending : p.entry ≠ .applyPending := by rintro h; rw [h] at hl; cases hl
  have hrecord := recordNamed_of_none (by rw [Program.labelName?, hs]; rfl) .runStarted
    (m.reset p.names)
  split at hrecord
  · have hstart : start p m = .error (.trap .bounds) (m.reset p.names) :=
      (bind_of_ok rfl).trans (bind_of_error hrecord)
    refine ⟨m.reset p.names, fun fuel => ?_⟩
    rw [run, bind_of_error hstart]
  · obtain ⟨j, hstart⟩ := start_of_recorded (j := m.journal) hrecord hroom
    refine ⟨((m.hosting p).posed (entryPose m.heap) j).ticked, fun fuel => ?_⟩
    have hloop : loop p (fuel + 1) p.entry ((m.hosting p).posed (entryPose m.heap) j) =
        .error (.trap .bounds) ((m.hosting p).posed (entryPose m.heap) j).ticked := by
      simp only [loop, if_neg hend, if_neg (not_overcounted_entryPose m.heap j), step,
        if_neg hpending, hs]
      rfl
    rw [run_of_start hstart, bind_of_error hloop]

end Machine

/-! ### Building -/

namespace Builder

variable {κ : Type}

/-- What is built, or why nothing is, leaving aside what is recorded. -/
theorem build_map_fst (b : Builder w κ) (entry : Label) (j : Journal w) :
    (b.build entry j).map Prod.fst =
      match b.unbound? with
      | some slot => .error (.error (.unboundLabel slot.name))
      | none =>
        if j.records .debug = true ∧ b.slots.size ≤ entry.index then .error (.trap .bounds)
        else .ok ⟨b.slots, entry, b.names⟩ := by
  unfold build
  cases b.unbound? with
  | some slot => rfl
  | none =>
    by_cases hj : j.records .debug = true
    · by_cases hentry : entry.index < b.slots.size
      · simp only [hj, if_true, Array.getElem?_eq_getElem hentry, true_and,
          if_neg (Nat.not_le.mpr hentry)]
        rfl
      · have hle := Nat.not_lt.mp hentry
        simp only [hj, if_true, Array.getElem?_eq_none hle, true_and, if_pos hle]
        rfl
    · simp only [hj]
      rfl

theorem build_eq_ok {b : Builder w κ} {entry : Label} {j j' : Journal w} {p : Program κ}
    (h : b.build entry j = .ok (p, j')) : b.unbound? = none ∧ p = ⟨b.slots, entry, b.names⟩ := by
  have hfst := b.build_map_fst entry j
  rw [h] at hfst
  split at hfst
  · cases hfst
  · next hnone =>
    split at hfst
    · cases hfst
    · exact ⟨hnone, Except.ok.inj hfst⟩

/-- Building traps only where it would have to name an entry outside the table. -/
theorem build_eq_trap_iff (b : Builder w κ) (entry : Label) (j : Journal w) :
    b.build entry j = .error (.trap .bounds) ↔
      b.unbound? = none ∧ b.slots.size ≤ entry.index ∧ j.records .debug = true := by
  have hfst := b.build_map_fst entry j
  constructor
  · intro h
    rw [h] at hfst
    split at hfst
    · cases hfst
    · next hnone =>
      split at hfst
      · next hcond => exact ⟨hnone, hcond.2, hcond.1⟩
      · cases hfst
  · rintro ⟨hnone, hentry, hj⟩
    simp only [hnone, hj, hentry, and_self, if_true] at hfst
    cases hbuild : b.build entry j with
    | ok r =>
      rw [hbuild] at hfst
      cases hfst
    | error e =>
      rw [hbuild] at hfst
      cases hfst
      rfl

/-- The two reserved labels have slots from the beginning. -/
theorem Labelled.slot_of_reserved {slots : Array (Slot κ)} {given : List (Label × String)}
    (L : Labelled slots given) {l : Label} (hl : l.isReserved = true) :
    ∃ slot, slots[l.index]? = some slot := by
  have hsize : 2 ≤ slots.size := by
    have hlength := congrArg List.length L
    simp only [reservedLabels, List.length_append, List.length_cons, List.length_nil,
      List.length_mapIdx, Array.length_toList] at hlength
    omega
  refine ⟨_, Array.getElem?_eq_getElem ?_⟩
  rcases Label.eq_of_isReserved hl with rfl | rfl
  · exact Nat.lt_of_lt_of_le Nat.zero_lt_two hsize
  · exact hsize

open Machine

/-- Whatever was asked of the builder, and whatever label is taken for the entry: a label outside
the table traps the build just when every label has code and the build is reported, and a label of
the table is treated alike whatever is recorded. A program that is built has the entry it was built
with. If that is a label with a slot, and not a reserved one, it has been bound, and the first
dispatch of every run comes to the code that it was bound to. If not, every run comes to a dead end
before any code. -/
theorem build_begins {qs : List (Request (Code w))} {log : Log (Code w)} {b : Builder w (Code w)}
    (hrun : Builder.run qs .empty = .ok log b) (entry : Label) :
    (∀ j, b.build entry j = .error (.trap .bounds) ↔
      b.unbound? = none ∧ b.slots.size ≤ entry.index ∧ j.records .debug = true) ∧
    (entry.index < b.slots.size → ∀ j j',
      (b.build entry j).map Prod.fst = (b.build entry j').map Prod.fst) ∧
    ∀ p j j', b.build entry j = .ok (p, j') → p.entry = entry ∧
      ∀ m : Machine w, m.heap.Bounded → 2 ≤ m.maxStackWords →
        if entry.isReserved = false ∧ (p.slot? entry).isSome then
          ∃ name words code, (entry, words, code) ∈ bindings log ∧
            p.slot? entry = some ⟨name, words, some code⟩ ∧ m.Begins p words code
        else ∃ n, ∀ fuel, Machine.run p (fuel + 1) m = .error entry.deadEnd n := by
  have R := records_of_run hrun
  refine ⟨b.build_eq_trap_iff entry, ?_, ?_⟩
  · intro hentry j j'
    rw [build_map_fst, build_map_fst]
    simp only [Nat.not_le.mpr hentry, and_false, if_false]
  · intro p j j' hbuild
    obtain ⟨hnone, rfl⟩ := build_eq_ok hbuild
    refine ⟨rfl, fun m B hroom => ?_⟩
    split
    · next hentry =>
      obtain ⟨hl, hsome⟩ := hentry
      obtain ⟨⟨name, words, code?⟩, hslot⟩ := Option.isSome_iff_exists.mp hsome
      obtain ⟨code, rfl⟩ :=
        Option.ne_none_iff_exists'.mp (code_of_unbound?_eq_none hnone hslot hl)
      exact ⟨name, words, code, (R.coded.mem_iff _ _ _).mpr ⟨name, hslot⟩, hslot,
        begins_of_slot hl hslot B hroom⟩
    · next hentry =>
      cases hl : entry.isReserved with
      | true =>
        obtain ⟨slot, hslot⟩ := R.labelled.slot_of_reserved hl
        have hname : (Program.mk b.slots entry b.names).labelName? entry = some slot.name := by
          rw [Program.labelName?, Program.slot?, hslot]
          rfl
        rcases Label.eq_of_isReserved hl with rfl | rfl
        · obtain ⟨n, _, hn⟩ := run_programEnd hname rfl hroom
          exact ⟨n, fun fuel => hn (fuel + 1)⟩
        · exact run_applyPending hname rfl hroom
      | false =>
        have hs : (Program.mk b.slots entry b.names).slot? entry = none := by
          rw [← Option.not_isSome_iff_eq_none]
          exact fun hsome => hentry ⟨hl, hsome⟩
        have hdead : entry.deadEnd (w := w) = .trap .bounds := by
          unfold Label.deadEnd
          rw [if_neg (by rintro rfl; cases hl), if_neg (by rintro rfl; cases hl)]
        rw [hdead]
        exact run_of_slot?_eq_none hs hl hroom

def lone : List (Request (Code .bits64)) := [.label "main", .bind ⟨2⟩ 3 (Machine.ret .unitWord)]

/-- With its label for the entry the program is built, and its first dispatch finds the words that
are reserved for the code. -/
theorem build_begins_lone :
    ∃ log, ∃ b : Builder .bits64 (Code .bits64), ∃ p, Builder.run lone .empty = .ok log b ∧
      b.build ⟨2⟩ {} = .ok (p, {}) ∧ (blank ample).Begins p 3 (Machine.ret .unitWord) ∧
      ∃ h, ((blank ample).hosting p).Takes (provide 3) (entryPose (blank ample).heap).tick ()
        (entryPose h).tick := by
  obtain ⟨log, b, hrun, hbindings, p, hbuild, hslot⟩ :
      ∃ log, ∃ b : Builder .bits64 (Code .bits64), Builder.run lone .empty = .ok log b ∧
        bindings log = [(⟨2⟩, 3, Machine.ret .unitWord)] ∧
        ∃ p, b.build ⟨2⟩ {} = .ok (p, {}) ∧ (p.slot? ⟨2⟩).isSome :=
    ⟨_, _, rfl, rfl, _, rfl, rfl⟩
  obtain ⟨_, _, hstarts⟩ := build_begins hrun ⟨2⟩
  obtain ⟨_, hbegins⟩ := hstarts p {} {} hbuild
  have hbegins := hbegins (blank ample) history_ample.made.heap (by decide)
  rw [if_pos ⟨by decide, hslot⟩] at hbegins
  obtain ⟨name, words, code, hmem, _, hbegins⟩ := hbegins
  rw [hbindings, List.mem_singleton] at hmem
  cases hmem
  refine ⟨log, b, p, hrun, hbuild, hbegins, ?_⟩
  obtain ⟨_, htakes⟩ | ⟨hfull, _⟩ | ⟨hlarge, _⟩ := hbegins.provided
  · exact htakes
  · exact absurd hfull (by decide)
  · exact absurd hlarge.max_lt (by decide)

/-- With the end of the program for the entry it is built too, and a run leaves the entry frame on
the stack. With a label that is not in the table it is built if the build is not reported, and
otherwise the build traps. -/
theorem build_takes_any_entry :
    ∃ log, ∃ b : Builder .bits64 (Code .bits64), Builder.run lone .empty = .ok log b ∧
      (∃ p n, b.build .programEnd {} = .ok (p, {}) ∧ p.entry.isReserved = true ∧
        Machine.run p 1 (blank ample) = .error (.trap .stackLeft) n ∧ n.slots.length = 2) ∧
      (∃ p n, b.build ⟨7⟩ {} = .ok (p, {}) ∧ p.slot? ⟨7⟩ = none ∧
        Machine.run p 1 (blank ample) = .error (.trap .bounds) n) ∧
      b.build ⟨7⟩ { level := some .debug } = .error (.trap .bounds) := by
  refine ⟨_, _, rfl, ⟨_, _, rfl, rfl, rfl, ?_⟩, ⟨_, _, rfl, rfl, rfl⟩, rfl⟩
  decide +kernel

end Builder

end Trampoline
