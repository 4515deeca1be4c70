import Trampoline.Proofs.Activation
import Trampoline.Proofs.Integers

/-!
Runs of known code, followed from label to label.

Where the code is known, a machine at a label is described by its pose: its heap, the slots beneath
the frame and those of the frame, the result, the mark of the stack and the steps so far. What is
recorded on the way is left open. An operation takes one pose to another, or stops; steps lead from
pose to pose; and a run that they lead to the end of the program, or to a step that stops, or past
the number of steps that can be counted, settles: all large amounts of fuel give the same outcome.
-/

namespace Trampoline

variable {w : Width}

/-- How a machine stands, as far as the code of a label can tell. -/
structure Pose (w : Width) where
  heap : Heap w
  /-- The slots beneath the frame, its continuation and link included. -/
  beneath : List (Word w)
  /-- The slots of the frame. -/
  locals : List (Word w)
  result : Word w
  /-- The largest depth of the stack so far. -/
  mark : Nat
  steps : Nat

namespace Pose

variable (q : Pose w)

def slots : List (Word w) := q.beneath ++ q.locals

def tick : Pose w := { q with steps := q.steps + 1 }

def refill (vs : List (Word w)) : Pose w :=
  { q with locals := vs, mark := max q.mark (q.beneath.length + vs.length) }

def push (v : Word w) : Pose w := q.refill (q.locals ++ [v])

def opened (continuation link : Word w) (vs : List (Word w)) : Pose w :=
  { q with
    beneath := q.slots ++ [continuation, link]
    locals := vs
    mark := max q.mark (q.slots.length + (2 + vs.length)) }

end Pose

/-- The mark is that of the depth after the last push. -/
theorem Stack.highWater_pushList_cons (s : Stack w) (v : Word w) (vs : List (Word w)) :
    (s.pushList (v :: vs)).highWater = max s.highWater (s.depth + (vs.length + 1)) := by
  have hdepth : (s.push v).depth = s.depth + 1 := by simp [depth_eq]
  have hmark : (s.push v).depth ≤ (s.push v).highWater := by
    rw [highWater_push, hdepth]
    exact Nat.le_max_right _ _
  have h := highWater_pushList hmark vs
  rw [highWater_push, hdepth] at h
  simp only [pushList, List.foldl_cons] at h ⊢
  rw [h]
  omega

namespace Machine

variable {α β : Type} (m : Machine w)

def posed (q : Pose w) (j : Journal w) : Machine w :=
  { m with
    heap := q.heap
    stack := ⟨q.slots.toArray, q.mark⟩
    fp := q.beneath.length
    result := q.result
    steps := q.steps
    journal := j }

/-- An operation takes the machine from one pose to another, and answers `a`. -/
def Takes (x : Op w α) (q : Pose w) (a : α) (q' : Pose w) : Prop :=
  ∀ j, ∃ j', x (m.posed q j) = .ok a (m.posed q' j')

def Stops (x : Op w α) (q : Pose w) (e : Fault w RuntimeError) : Prop :=
  ∀ j, ∃ n, x (m.posed q j) = .error e n

def Continues (x : Op w α) (q : Pose w) (y : Op w α) (q' : Pose w) : Prop :=
  ∀ j, ∃ j', x (m.posed q j) = y (m.posed q' j')

variable {m} {x : Op w α} {f : α → Op w β} {q q' q'' : Pose w} {a : α} {b : β}
  {e : Fault w RuntimeError} {k l : Label} {v u : Word w} {vs : List (Word w)} {j : Journal w}

@[simp] theorem slots_posed : (m.posed q j).slots = q.slots := rfl

/-- A machine with all that a pose tells is in the pose. -/
theorem posed_eq {n : Machine w} (hheap : n.heap = q.heap) (hslots : n.slots = q.slots)
    (hmark : n.stack.highWater = q.mark) (hfp : n.fp = q.beneath.length)
    (hresult : n.result = q.result) (hsteps : n.steps = q.steps) (hnames : n.names = m.names)
    (hsink : n.sink = m.sink) (hmax : n.maxStackWords = m.maxStackWords) :
    n = m.posed q n.journal := by
  have hstack : n.stack = ⟨q.slots.toArray, q.mark⟩ := Stack.eq_of_slots hslots hmark
  obtain ⟨heap, stack, fp, result, names, sink, maxStackWords, steps, journal⟩ := n
  cases hheap
  cases hstack
  cases hfp
  cases hresult
  cases hsteps
  cases hnames
  cases hsink
  cases hmax
  rfl

theorem Takes.of_eq (h : ∀ j, x (m.posed q j) = .ok a (m.posed q' j)) : m.Takes x q a q' :=
  fun j => ⟨j, h j⟩

theorem Takes.bind (hx : m.Takes x q a q') (hf : m.Takes (f a) q' b q'') :
    m.Takes (x >>= f) q b q'' := by
  intro j
  obtain ⟨j', hj'⟩ := hx j
  obtain ⟨j'', hj''⟩ := hf j'
  exact ⟨j'', (bind_of_ok hj').trans hj''⟩

theorem Takes.bind_stops (hx : m.Takes x q a q') (hf : m.Stops (f a) q' e) :
    m.Stops (x >>= f) q e := by
  intro j
  obtain ⟨j', hj'⟩ := hx j
  obtain ⟨n, hn⟩ := hf j'
  exact ⟨n, (bind_of_ok hj').trans hn⟩

theorem Stops.bind (hx : m.Stops x q e) : m.Stops (x >>= f) q e := by
  intro j
  obtain ⟨n, hn⟩ := hx j
  exact ⟨n, bind_of_error hn⟩

theorem Takes.continues (hx : m.Takes x q a q') : m.Continues (x >>= f) q (f a) q' := by
  intro j
  obtain ⟨j', hj'⟩ := hx j
  exact ⟨j', bind_of_ok hj'⟩

theorem Continues.trans {y z : Op w α} (h : m.Continues x q y q') (h' : m.Continues y q' z q'') :
    m.Continues x q z q'' := by
  intro j
  obtain ⟨j', hj'⟩ := h j
  obtain ⟨j'', hj''⟩ := h' j'
  exact ⟨j'', hj'.trans hj''⟩

theorem Continues.takes {y : Op w α} (h : m.Continues x q y q') (hy : m.Takes y q' a q'') :
    m.Takes x q a q'' := by
  intro j
  obtain ⟨j', hj'⟩ := h j
  obtain ⟨j'', hj''⟩ := hy j'
  exact ⟨j'', hj'.trans hj''⟩

theorem Continues.stops {y : Op w α} (h : m.Continues x q y q') (hy : m.Stops y q' e) :
    m.Stops x q e := by
  intro j
  obtain ⟨j', hj'⟩ := h j
  obtain ⟨n, hn⟩ := hy j'
  exact ⟨n, hj'.trans hn⟩

theorem takes_pure (a : α) : m.Takes (pure a) q a q := .of_eq fun _ => rfl

theorem takes_lift {r : Except (Trap w) α} (hr : r = .ok a) : m.Takes (liftM r) q a q := by
  rw [hr]
  exact takes_pure a

theorem takes_record (e : Event w) : m.Takes (record e) q () q := fun j => ⟨j.record e, rfl⟩

theorem takes_int {n : Int} (hn : w.minInt ≤ n ∧ n ≤ w.maxInt) :
    m.Takes (Demo.int n) q (Word.wrapInt n) q :=
  takes_lift (Word.int_of_range hn)

theorem takes_lastResult : m.Takes lastResult q q.result q := .of_eq fun _ => rfl

theorem takes_slot {i : Nat} (hv : q.locals[i]? = some v) (hi : q.beneath.length + i < sizeRange) :
    m.Takes (slot i) q v q := by
  refine .of_eq fun j => ?_
  have hadd : Size.add (w := w) q.beneath.length i = .ok (q.beneath.length + i) := if_pos hi
  have hslot : (m.posed q j).stack.slots[q.beneath.length + i]? = some v := by
    change q.slots.toArray[q.beneath.length + i]? = some v
    rw [List.getElem?_toArray, Pose.slots, List.getElem?_append_right (Nat.le_add_right _ _),
      Nat.add_sub_cancel_left, hv]
  change ((liftM (Size.add (w := w) q.beneath.length i) : Op w Nat) >>= _) (m.posed q j) = _
  rw [liftM_bind_of_ok hadd]
  simp only [hslot]
  rfl

theorem takes_field {i : Nat} (hv : q.heap.field u i = .ok v) : m.Takes (field u i) q v q := by
  refine .of_eq fun j => ?_
  change (liftM (q.heap.field u i) : Op w (Word w)) (m.posed q j) = _
  rw [hv]
  rfl

theorem takes_select {c : Case α} {route : Route} (hc : c.select q.heap v = .ok (a, route)) :
    m.Takes (select c v) q a q := by
  intro j
  refine ⟨j.record (.dispatched v route), ?_⟩
  change ((liftM (c.select q.heap v) : Op w (α × Route)) >>= _) (m.posed q j) = _
  rw [hc]
  rfl

theorem takes_branch (c : Bool) (k l : Label) :
    m.Takes (branch (.ofBool c) k l) q (if c then k else l) q := by
  refine .of_eq fun j => ?_
  have hne : (Word.falseWord : Word w) ≠ Word.trueWord := by cases w <;> decide
  cases c with
  | true => simp [branch, Word.ofBool]; rfl
  | false => simp [branch, Word.ofBool, hne]; rfl

/-- A tail call replaces the slots of the frame. -/
theorem takes_tailCall (hroom : q.beneath.length + (v :: vs).length ≤ m.maxStackWords) :
    m.Takes (tailCall l (v :: vs)) q l (q.refill (v :: vs)) := by
  refine .of_eq fun j => ?_
  have hle : q.beneath.length ≤ (m.posed q j).slots.length := by
    rw [slots_posed, Pose.slots, List.length_append]
    omega
  have htake : ((m.posed q j).dropped q.beneath.length).slots = q.beneath := by
    rw [slots_dropped, slots_posed, Pose.slots, List.take_left]
  have hcheck : checkStack (v :: vs).length ((m.posed q j).dropped q.beneath.length) =
      .ok () ((m.posed q j).dropped q.beneath.length) := by
    refine checkStack_of_le ?_
    rw [htake]
    exact hroom
  have hreplace : replaceFrame (pure (v :: vs)) (v :: vs).length (m.posed q j) =
      .ok () (m.posed (q.refill (v :: vs)) j) := by
    refine ((bind_of_ok (truncate_of_le hle)).trans (bind_of_ok hcheck)).trans ?_
    refine congrArg (EStateM.Result.ok ()) (posed_eq rfl ?_ ?_ rfl rfl rfl rfl rfl rfl)
    · change ((((m.posed q j).dropped q.beneath.length).stack).pushList (v :: vs)).slots.toList = _
      rw [Stack.slots_pushList]
      exact congrArg (· ++ v :: vs) htake
    · change ((((m.posed q j).dropped q.beneath.length).stack).pushList (v :: vs)).highWater = _
      rw [Stack.highWater_pushList_cons, depth_eq, htake]
      rfl
  exact bind_of_ok hreplace

theorem takes_pushLocal (hroom : q.slots.length + 1 ≤ m.maxStackWords) :
    m.Takes (pushLocal v) q () (q.push v) := by
  refine .of_eq fun j => (bind_of_ok (checkStack_of_le hroom)).trans ?_
  refine congrArg (EStateM.Result.ok ()) (posed_eq rfl ?_ ?_ rfl rfl rfl rfl rfl rfl)
  · change ((m.posed q j).stack.push v).slots.toList = _
    rw [Stack.slots_push]
    simp [Pose.push, Pose.refill, Pose.slots, posed]
  · change ((m.posed q j).stack.push v).highWater = _
    rw [Stack.highWater_push, depth_eq, slots_posed]
    simp [Pose.push, Pose.refill, Pose.slots, posed, Nat.add_assoc]

/-- A frame that is opened with its slots. -/
theorem posed_opened :
    (m.posed q j).opened v u vs = m.posed (q.opened v u vs) j := by
  refine posed_eq rfl ?_ ?_ ?_ rfl rfl rfl rfl rfl
  · rw [slots_opened, slots_posed]
    simp [Pose.opened, Pose.slots]
  · change ((m.posed q j).stack.pushList (v :: u :: vs)).highWater = _
    rw [Stack.highWater_pushList_cons, depth_eq, slots_posed]
    simp only [posed, Pose.opened, List.length_cons]
    omega
  · change (m.posed q j).slots.length + 2 = _
    simp [Pose.opened]

theorem takes_call (hk : Word.codeAddress k.id = .ok v)
    (hlink : Word.size q.beneath.length = .ok u)
    (hroom : q.slots.length + (2 + vs.length) ≤ m.maxStackWords) :
    m.Takes (call l vs k) q l (q.opened v u vs) := by
  refine .of_eq fun j => ?_
  have hpush : pushFrame k vs.length (m.posed q j) = .ok () ((m.posed q j).opened v u []) :=
    pushFrame_of_room hk hlink hroom
  rw [← posed_opened]
  exact bind_of_ok hpush

theorem stops_call (hfull : m.maxStackWords < q.slots.length + (2 + vs.length)) :
    m.Stops (call l vs k) q (.error (.stackOverflow m.maxStackWords)) :=
  fun _ => ⟨_, bind_of_error (pushFrame_of_lt hfull)⟩

/-- A return takes the frame off that a call has put on. -/
theorem takes_ret {a b : Word w} (hk : Word.codeAddress k.id = .ok a)
    (hlink : Word.size q.beneath.length = .ok b) (hsmall : (q.beneath.length : Int) ≤ w.maxInt)
    (hbeneath : q'.beneath = q.slots ++ [a, b]) :
    m.Takes (ret v) q' k { q' with beneath := q.beneath, locals := q.locals, result := v } := by
  refine .of_eq fun j => ?_
  have hslots : (m.posed { q' with result := v } j).slots = q.slots ++ a :: b :: q'.locals := by
    change q'.beneath ++ q'.locals = _
    rw [hbeneath, List.append_assoc]
    rfl
  have hfp : (m.posed { q' with result := v } j).fp = q.slots.length + 2 := by
    change q'.beneath.length = _
    rw [hbeneath, List.length_append]
    rfl
  refine (leaveFrame_of_frame (Word.toCodeAddress_codeAddress hk)
    (Word.toSmallInt_size hsmall hlink) hfp hslots).trans ?_
  refine congrArg (EStateM.Result.ok k) (posed_eq rfl ?_ rfl rfl rfl rfl rfl rfl rfl)
  change ((m.posed { q' with result := v } j).dropped q.slots.length).slots = _
  rw [slots_dropped, hslots, List.take_left]
  rfl

theorem size_zero : Word.size 0 = .ok (.wrapInt 0 : Word w) :=
  Word.size_of_small (by cases w <;> decide)

/-- The first frame is left for the end of the program. -/
theorem takes_ret_end (hbeneath : q.beneath = [.wrapInt 0, .wrapInt 0]) :
    m.Takes (ret v) q .programEnd { q with beneath := [], locals := [], result := v } :=
  takes_ret (q := { q with beneath := [], locals := [] }) size_zero size_zero
    (w.digit_range (n := 0) (by decide)).2 hbeneath

/-! ### Steps -/

section

variable (p : Program (Code w)) (m)

/-- Steps lead from a label and a pose to another label and pose, if only they can be counted. -/
inductive Leads (l : Label) (q : Pose w) : Label → Pose w → Prop where
  | refl : Leads l q l q
  | step {l' l'' : Label} {q' q'' : Pose w} : Leads l q l' q' → l' ≠ .programEnd →
      m.Takes (step p l') q'.tick l'' q'' → q''.steps = q'.steps + 1 → Leads l q l'' q''

/-- Steps lead from a label and a pose to a label where the step ends with a fault. -/
def Fails (l : Label) (q : Pose w) (e : Fault w RuntimeError) : Prop :=
  ∃ l' q', Leads m p l q l' q' ∧ l' ≠ .programEnd ∧ (p.labelName? l').isSome ∧
    q'.steps + 1 < sizeRange ∧ m.Stops (step p l') q'.tick e

variable {p m} {l' l'' : Label}

theorem Leads.trans (h : Leads m p l q l' q') (h' : Leads m p l' q' l'' q'') :
    Leads m p l q l'' q'' := by
  induction h' with
  | refl => exact h
  | step _ hl hstep hcount ih => exact .step ih hl hstep hcount

theorem leads_of_step (hl : l ≠ .programEnd) (h : m.Takes (step p l) q.tick l' q')
    (hcount : q'.steps = q.steps + 1) : Leads m p l q l' q' :=
  .step .refl hl h hcount

/-- Steps that can be counted are taken. -/
theorem Leads.goes (h : Leads m p l q l' q') (hcount : q'.steps < sizeRange) (j : Journal w) :
    ∃ j', Goes p running l (m.posed q j) l' (m.posed q' j') := by
  induction h with
  | refl => exact ⟨j, .refl⟩
  | step _ hl hstep hnext ih =>
    obtain ⟨j', hgoes⟩ := ih (by omega)
    obtain ⟨j'', hj''⟩ := hstep j'
    exact ⟨j'', .step hgoes hl (hnext ▸ hcount) hj''⟩

/-- Where there are more steps than can be counted, there is a first one that cannot. -/
theorem Leads.last_counted (h : Leads m p l q l' q') (hstart : q.steps < sizeRange)
    (hover : sizeRange ≤ q'.steps) :
    ∃ l₁ q₁, Leads m p l q l₁ q₁ ∧ l₁ ≠ .programEnd ∧ q₁.steps + 1 = sizeRange := by
  induction h with
  | refl => omega
  | @step l₁ _ q₁ _ hlead hl _ hnext ih =>
    by_cases hbefore : sizeRange ≤ q₁.steps
    · exact ih hbefore
    · exact ⟨l₁, q₁, hlead, hl, by omega⟩

variable {name : String} {words : Nat} {code : Code w}

/-- A step reserves what the code may allocate, and does what the code does. -/
theorem takes_step (hl : l.isReserved = false)
    (hs : p.slot? l = some ⟨name, words, some code⟩) (hready : m.Takes (provide words) q () q')
    (hcode : m.Takes code q' l' q'') : m.Takes (step p l) q l' q'' := by
  have hne : l ≠ .applyPending := by rintro rfl; cases hl
  rw [step_of_slot hne hs]
  exact (takes_record _).bind (hready.bind hcode)

theorem takes_provide_zero : m.Takes (provide 0) q () q := takes_pure ()

/-- A step through code that allocates nothing. -/
theorem leads_of_code (hl : l.isReserved = false) (hs : p.slot? l = some ⟨name, 0, some code⟩)
    (hcount : q'.steps = q.steps + 1) (hcode : m.Takes code q.tick l' q') : Leads m p l q l' q' :=
  leads_of_step (by rintro rfl; cases hl) (takes_step hl hs takes_provide_zero hcode) hcount

theorem Leads.fails (h : Leads m p l q l' q') (h' : Fails m p l' q' e) : Fails m p l q e := by
  obtain ⟨l₁, q₁, hlead, hrest⟩ := h'
  exact ⟨l₁, q₁, h.trans hlead, hrest⟩

/-- A step that fails where it reserves what the code may allocate, or in the code. -/
theorem fails_of_code (hl : l.isReserved = false)
    (hs : p.slot? l = some ⟨name, words, some code⟩) (hcount : q.steps + 1 < sizeRange)
    (hcode : m.Stops (provide words >>= fun _ => code) q.tick e) : Fails m p l q e := by
  have hne : l ≠ .applyPending := by rintro rfl; cases hl
  have hend : l ≠ .programEnd := by rintro rfl; cases hl
  have hname : (p.labelName? l).isSome := by rw [Program.labelName?, hs]; rfl
  refine ⟨l, q, .refl, hend, hname, hcount, ?_⟩
  rw [step_of_slot hne hs]
  exact (takes_record _).bind_stops hcode

end

/-! ### Runs -/

section

variable (p : Program (Code w)) (m)

/-- All runs with enough fuel have the same outcome. -/
def Settles (r : Outcome w (Machine w) (Word w)) : Prop :=
  ∃ least, ∀ fuel, least ≤ fuel → run p fuel m = r

/-- The pose in which a run enters the first label: a frame without slots is on the stack. -/
def entryPose (h : Heap w) : Pose w :=
  { heap := h, beneath := [.wrapInt 0, .wrapInt 0], locals := [], result := .unitWord, mark := 2
    steps := 0 }

def hosting : Machine w := { m with names := p.names }

variable {m p} {name : String}

/-- An event about a label with a name can always be recorded. -/
theorem recordNamed_of_name (hname : p.labelName? l = some name) (event : String → Event w)
    (n : Machine w) : ∃ j, recordNamed p l event n = .ok () { n with journal := j } := by
  by_cases hr : n.journal.records .debug = true
  · refine ⟨n.journal.record (event name), ?_⟩
    change (ite _ _ _ : Op w Unit) n = _
    rw [if_pos hr, hname]
    rfl
  · refine ⟨n.journal, ?_⟩
    change (ite _ _ _ : Op w Unit) n = _
    rw [if_neg hr]
    rfl

theorem reportFailure_of_name (hname : p.labelName? l = some name) (e : RuntimeError)
    (n : Machine w) : ∃ j, reportFailure p e l n = .ok () { n with journal := j } := by
  obtain ⟨j, hj⟩ := recordNamed_of_name hname (.runFailed e) n
  obtain ⟨j', hj'⟩ := dumpStack_eq { n with journal := j }
  exact ⟨j', (bind_of_ok hj).trans hj'⟩

/-- Once the start has been recorded, the entry frame is opened. -/
theorem start_of_recorded {j : Journal w}
    (hj : recordNamed p p.entry .runStarted (m.reset p.names) =
      .ok () { m.reset p.names with journal := j }) (hroom : 2 ≤ m.maxStackWords) :
    ∃ j', start p m = .ok p.entry ((m.hosting p).posed (entryPose m.heap) j') := by
  have hcall : (m.hosting p).Takes (call p.entry [] .programEnd)
      ⟨m.heap, [], [], .unitWord, 0, 0⟩ p.entry (entryPose m.heap) :=
    takes_call (q := ⟨m.heap, [], [], .unitWord, 0, 0⟩) size_zero size_zero hroom
  obtain ⟨j', hj'⟩ := hcall j
  exact ⟨j', (bind_of_ok hj).trans hj'⟩

theorem start_posed (hname : p.labelName? p.entry = some name) (hroom : 2 ≤ m.maxStackWords) :
    ∃ j, start p m = .ok p.entry ((m.hosting p).posed (entryPose m.heap) j) := by
  obtain ⟨j, hj⟩ := recordNamed_of_name hname .runStarted (m.reset p.names)
  exact start_of_recorded hj hroom

theorem render_wrapInt (z : Int) (n : Machine w) :
    ∃ text, render (.wrapInt z) n = .ok text n := by
  refine ⟨toString (Word.wrapInt z : Word w).intValue, ?_⟩
  have hview : (Word.wrapInt z : Word w).view = .ok (.int (Word.wrapInt z : Word w).intValue) :=
    if_pos (Word.isInt_wrapInt z)
  have hrender : n.heap.render n.names (.wrapInt z) =
      .ok (toString (Word.wrapInt z : Word w).intValue) := by
    rw [Heap.render, Heap.renderLevels, hview]
    rfl
  change (liftM (n.heap.render n.names (.wrapInt z)) : Op w String) n = _
  rw [hrender]
  rfl

/-- At the end of the program an integer is printed, and the run returns it. -/
theorem conclude_posed {z : Int} (hslots : q.slots = []) (hv : q.result = .wrapInt z) :
    ∃ n, conclude (m.posed q j) = .ok q.result n ∧ n.heap = q.heap ∧
      n.stack.highWater = q.mark ∧ n.steps = q.steps := by
  have hdepth : (m.posed q j).stack.depth = 0 := by
    rw [depth_eq, slots_posed, hslots]
    rfl
  let j' := j.record (.runFinished q.steps q.mark q.heap.stats.collections)
  obtain ⟨text, htext⟩ := render_wrapInt z (m.posed q j')
  rw [← hv] at htext
  refine ⟨{ m.posed q j' with sink := m.sink.print ⟨.toplevel, q.result, text⟩ }, ?_, rfl, rfl, rfl⟩
  change (ite _ _ _ : Op w _) (m.posed q j) = _
  rw [if_neg (not_not_intro hdepth)]
  exact bind_of_ok htext

/-- A run that steps lead somewhere goes on from there. -/
theorem Leads.run_eq (hname : p.labelName? p.entry = some name) (hroom : 2 ≤ m.maxStackWords)
    (h : Leads (m.hosting p) p p.entry (entryPose m.heap) l q) (hcount : q.steps < sizeRange) :
    ∃ n j, ∀ fuel, run p (n + fuel) m =
      (loop p fuel l >>= fun _ => conclude) ((m.hosting p).posed q j) := by
  obtain ⟨j₀, hstart⟩ := start_posed hname hroom
  obtain ⟨j, hgoes⟩ := h.goes hcount j₀
  obtain ⟨n, hn⟩ := Visits.run_eq ⟨_, _, hstart, hgoes⟩
  exact ⟨n, j, hn⟩

/-- A run that comes to the end of the program with an integer returns it. -/
theorem Leads.settles (hname : p.labelName? p.entry = some name) (hroom : 2 ≤ m.maxStackWords)
    (h : Leads (m.hosting p) p p.entry (entryPose m.heap) .programEnd q)
    (hcount : q.steps < sizeRange) {z : Int} (hslots : q.slots = []) (hv : q.result = .wrapInt z) :
    ∃ n, Settles m p (.ok q.result n) ∧ n.heap = q.heap ∧ n.stack.highWater = q.mark ∧
      n.steps = q.steps := by
  obtain ⟨least, j, hrun⟩ := h.run_eq hname hroom hcount
  obtain ⟨n, hconclude, hn⟩ := conclude_posed (m := m.hosting p) (j := j) hslots hv
  refine ⟨n, ⟨least, fun fuel hfuel => ?_⟩, hn⟩
  obtain ⟨rest, rfl⟩ := Nat.exists_eq_add_of_le hfuel
  have hloop : loop p rest .programEnd ((m.hosting p).posed q j) =
      .ok () ((m.hosting p).posed q j) := by
    cases rest <;> rfl
  rw [hrun, bind_of_ok hloop, hconclude]

/-- A run that steps lead to where the loop ends with a fault ends with it. -/
theorem Leads.settles_error (hname : p.labelName? p.entry = some name) (hroom : 2 ≤ m.maxStackWords)
    (h : Leads (m.hosting p) p p.entry (entryPose m.heap) l q) (hcount : q.steps < sizeRange)
    (hloop : ∀ j, ∃ n, ∀ rest, loop p (rest + 1) l ((m.hosting p).posed q j) = .error e n) :
    ∃ n, Settles m p (.error e n) := by
  obtain ⟨least, j, hrun⟩ := h.run_eq hname hroom hcount
  obtain ⟨n, hn⟩ := hloop j
  refine ⟨n, least + 1, fun fuel hfuel => ?_⟩
  obtain ⟨rest, rfl⟩ := Nat.exists_eq_add_of_le hfuel
  rw [Nat.add_right_comm, Nat.add_assoc, hrun, bind_of_error (hn rest)]

/-- A run that comes to a step with a fault ends with the fault. -/
theorem Fails.settles (hname : p.labelName? p.entry = some name) (hroom : 2 ≤ m.maxStackWords)
    (h : Fails (m.hosting p) p p.entry (entryPose m.heap) e) :
    ∃ n, Settles m p (.error e n) := by
  obtain ⟨l, q, hlead, hl, hlabel, hcount, hstop⟩ := h
  obtain ⟨name', hname'⟩ := Option.isSome_iff_exists.mp hlabel
  refine hlead.settles_error hname hroom (Nat.lt_of_succ_lt hcount) fun j => ?_
  obtain ⟨n, hn⟩ := hstop j
  have hstep : step p l ((m.hosting p).posed q j).ticked = .error e n := hn
  have hticks : ¬ sizeRange ≤ ((m.hosting p).posed q j).steps + 1 := Nat.not_le.mpr hcount
  simp only [loop, if_neg hl, if_neg hticks, hstep]
  cases e with
  | error e =>
    -- An error of the program is reported before the run ends.
    obtain ⟨j', hj'⟩ := reportFailure_of_name hname' e n
    exact ⟨{ n with journal := j' }, fun _ => bind_of_ok hj'⟩
  | trap t => exact ⟨n, fun _ => rfl⟩
  | unfinished => exact ⟨n, fun _ => rfl⟩

/-- A run of more steps than can be counted traps. -/
theorem Leads.overflows (hname : p.labelName? p.entry = some name) (hroom : 2 ≤ m.maxStackWords)
    (h : Leads (m.hosting p) p p.entry (entryPose m.heap) l q) (hover : sizeRange ≤ q.steps) :
    ∃ n, Settles m p (.error (.trap .bounds) n) := by
  obtain ⟨l₁, q₁, hlead, hl, hlast⟩ := h.last_counted (by decide : 0 < sizeRange) hover
  refine hlead.settles_error hname hroom (by omega) fun j => ⟨(m.hosting p).posed q₁ j, fun _ => ?_⟩
  have hticks : sizeRange ≤ ((m.hosting p).posed q₁ j).steps + 1 := hlast.ge
  simp only [loop, if_neg hl, if_pos hticks]

end

end Machine

end Trampoline
