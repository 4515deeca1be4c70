import Trampoline.Proofs.Activation

/-!
Application to too many arguments.

A closure that is applied to more arguments than it takes is called with those that saturate it.
The others wait in a pending block beneath the frame, and whatever the call does, it leaves them
there: when the frame is left, the value that was returned is applied to them, in the machine that
made the application, as if it had been applied there. So chains of such applications are resolved
from left to right.
-/

namespace Trampoline.Machine

variable {w : Width} {m n m₁ m₂ : Machine w} {v : Word w} {args xs ys ys' : List (Word w)}
  {k l label : Label} {c : ClosureView w} {p : Program (Body w)}

/-- A machine in which an operation may be given the words held: all references are to blocks of the
heap, and the frame pointer is on the stack, whose depths are small integers. -/
structure Valid (m : Machine w) (held : List (Word w)) : Prop where
  sound : m.Sound held
  fp_le : m.fp ≤ m.slots.length
  limit : (m.maxStackWords : Int) ≤ w.maxInt

/-- Machines that careful code comes through are valid, with the words it holds. -/
theorem Stands.valid {d : Nat} {k₀ : Label} {f₀ : Nat} {held : List (Word w)}
    (h : Stands d k₀ f₀ label m) (hd : d < m.slots.length) (hl : label.isReserved = false)
    (hn : Amid p label m n held) : n.Valid held := by
  obtain ⟨_, _, hsound, hstands, _⟩ := h.passes hd hl hn
  exact ⟨hsound, hstands.fp_le, hstands.limit⟩

/-- A machine has the frame pointer and the slots of an earlier one, and words are those of an
earlier time, all moved by the same collections. -/
structure Resumes (m n : Machine w) (vs us : List (Word w)) : Prop where
  fp : n.fp = m.fp
  moved : ∃ ψ : Ref → Ref → Prop, m.heap.space.Matched n.heap.space ψ ∧
    List.Forall₂ (Word.Matched ψ) m.slots n.slots ∧ List.Forall₂ (Word.Matched ψ) vs us

theorem Valid.resumes (h : m.Valid args) : Resumes m m args args := by
  obtain ⟨W, M, hargs⟩ := h.sound.twins (Nat.zero_le _)
  exact ⟨rfl, W.Links, M.heap.matched, M.slots, hargs⟩

theorem Resumes.drop (h : Resumes m n xs ys) (i : Nat) : Resumes m n (xs.drop i) (ys.drop i) := by
  obtain ⟨ψ, hM, hslots, hargs⟩ := h.moved
  exact ⟨h.fp, ψ, hM, hslots, List.forall₂_drop i hargs⟩

theorem Resumes.trans {vs us ws : List (Word w)} {o : Machine w} (h : Resumes m n vs us)
    (h' : Resumes n o us ws) : Resumes m o vs ws := by
  obtain ⟨ψ, hM, hslots, hvs⟩ := h.moved
  obtain ⟨ψ', hM', hslots', hus⟩ := h'.moved
  have htrans := fun (x y z : Word w) (hx : Word.Matched ψ x y) (hy : Word.Matched ψ' y z) =>
    hx.trans hy
  exact ⟨h'.fp.trans h.fp, _, hM.trans hM', forall₂_trans htrans hslots hslots',
    forall₂_trans htrans hvs hus⟩

/-! ### The saturated call -/

/-- An application to the right number of arguments enters the closure. -/
theorem apply_of_saturated (hc : m.heap.closure? v = .ok (some c))
    (hxs : c.captured + xs.length = c.arity) : apply v xs k m = enter c xs k m := by
  unfold apply
  rw [bind_of_ok (closureView_of_some hc), compare_eq_iff_eq.mpr hxs]

/-- An application to more arguments leaves a pending block, and makes the application to the right
number of them. -/
theorem apply_surplus_eq_ok (hc : m.heap.closure? v = .ok (some c))
    (hxs : c.captured + xs.length = c.arity) (hys : ys ≠ [])
    (h : apply v (xs ++ ys) k m = .ok l m₁) :
    ∃ continuation count, Word.codeAddress k.id = .ok continuation ∧
      Word.size ys.length = .ok count ∧
      m.slots.length + (ys.length + 2) ≤ m.maxStackWords ∧
      apply v xs .applyPending (m.suspended continuation ys count) = .ok l m₁ := by
  have hpos := List.length_pos_iff.mpr hys
  have hgt : compare (c.captured + (xs ++ ys).length) c.arity = .gt := by
    rw [compare_gt_iff_gt, List.length_append]
    omega
  unfold apply at h
  rw [bind_of_ok (closureView_of_some hc), hgt] at h
  obtain ⟨need, a, count, hneed, ha, hcount, hroom, hrest⟩ := overApply_eq_ok h
  have hlen : need = xs.length := by omega
  rw [hlen, List.drop_left] at hcount hroom
  rw [hlen, List.drop_left, List.take_left] at hrest
  have hsaturated := apply_of_saturated (m := m.suspended a ys count) (k := .applyPending) hc hxs
  exact ⟨a, count, ha, hcount, hroom, hsaturated.trans hrest⟩

/-- What a saturated call finds in its frame: the arguments that the closure holds, then the new
ones. -/
theorem apply_frame (hc : m.heap.closure? v = .ok (some c))
    (hxs : c.captured + xs.length = c.arity) (h : apply v xs k m = .ok l n) :
    l = c.entry ∧ n.heap = m.heap ∧ n.fp = m.slots.length + 2 ∧
      ∃ held, m.heap.capturedArgs c = .ok held ∧ n.slots.drop n.fp = held ++ xs := by
  rw [apply_of_saturated hc hxs] at h
  obtain ⟨a, b, held, _, _, hheld, _, rfl, rfl⟩ := enter_eq_ok h
  refine ⟨rfl, rfl, rfl, held, hheld, ?_⟩
  rw [slots_opened]
  change (m.slots ++ a :: b :: (held ++ xs)).drop (m.slots.length + 2) = _
  rw [List.drop_length_add_append]
  rfl

/-! ### Until the frame is left -/

def above (d : Nat) (_ : Label) (m : Machine w) : Prop := d < m.slots.length

instance (d : Nat) (label : Label) (m : Machine w) : Decidable (above d label m) :=
  inferInstanceAs (Decidable (d < m.slots.length))

/-- The call stands on the pending block, which is where the chain ends for it. -/
theorem stands_surplus (hm : m.Valid (v :: (xs ++ ys))) (hc : m.heap.closure? v = .ok (some c))
    (hxs : c.captured + xs.length = c.arity) (hys : ys ≠ [])
    (h : apply v (xs ++ ys) k m = .ok l m₁) :
    ∃ continuation count, continuation.toCodeAddress = .ok k.id ∧
      count.toSmallInt = .ok (ys.length : Int) ∧ m₁.heap = m.heap ∧
      m₁.slots.take (m.slots.length + ys.length + 2) =
        m.slots ++ continuation :: (ys ++ [count]) ∧
      Stands (m.slots.length + ys.length + 2) .applyPending m.fp l m₁ := by
  obtain ⟨a, count, ha, hcount, hroom, hcall⟩ := apply_surplus_eq_ok hc hxs hys h
  obtain ⟨W, M, hheld⟩ := hm.sound.twins (Nat.zero_le _)
  have hlen : (m.suspended a ys count).slots.length = m.slots.length + ys.length + 2 := by
    rw [slots_suspended]
    simp only [List.length_append, List.length_cons, List.length_nil]
    omega
  have hlimit := hm.limit
  have hfp := hm.fp_le
  cases hheld with
  | cons hv hargs =>
    have happly := M.apply hv hargs k
    rw [h] at happly
    obtain ⟨_, f, V, M₁⟩ := happly
    obtain ⟨_, hentry⟩ := M.closureView_eq_ok hv (closureView_of_some hc)
    rw [apply_of_saturated (m := m.suspended a ys count) hc hxs] at hcall
    have C := Chain.enter (m := m.suspended a ys count) (.base hlen)
      (show m.fp ≤ m.slots.length + ys.length + 2 by omega) hlimit hentry hcall
    obtain ⟨_, _, held, _, _, _, _, rfl, rfl⟩ := enter_eq_ok hcall
    refine ⟨a, count, Word.toCodeAddress_codeAddress ha, Word.toSmallInt_size (by omega) hcount,
      rfl, ?_, M₁.sound .nil, C, by omega, hlimit⟩
    rw [slots_opened, ← hlen, List.take_left, slots_suspended]

/-- When the call has returned, the pending block is on top of the stack, beneath it everything is
as it was, and the value is applied to the surplus arguments. -/
theorem apply_surplus_returns (hp : p.Directed) (hm : m.Valid (v :: (xs ++ ys)))
    (hc : m.heap.closure? v = .ok (some c)) (hxs : c.captured + xs.length = c.arity) (hys : ys ≠ [])
    (h : apply v (xs ++ ys) k m = .ok l m₁)
    (hgoes : Goes (p.map Body.careful) (above (m.slots.length + ys.length + 2)) l m₁ label m₂)
    (hret : m₂.slots.length ≤ m.slots.length + ys.length + 2) :
    label = .applyPending ∧ ∃ ys',
      (m₂.slots.drop (m.slots.length + 1)).take ys.length = ys' ∧
      applyPending m₂.ticked = apply m₂.result ys' k (m₂.ticked.dropped m.slots.length) ∧
      (m₂.ticked.dropped m.slots.length).Valid (m₂.result :: ys') ∧
      Resumes m (m₂.ticked.dropped m.slots.length) ys ys' := by
  obtain ⟨a, count, ha, hcount, hheap, htake, h₁⟩ := stands_surplus hm hc hxs hys h
  have hdepth : m.slots.length + ys.length + 2 ≤ m₁.slots.length := h₁.chain.le_length
  obtain ⟨h₂, hlen, ψ, hM, hslots⟩ := h₁.goes hp (fun _ _ _ hd => hd) hdepth hgoes
  obtain ⟨rfl, hfp⟩ := h₂.chain.at_base hret
  rw [htake, List.take_of_length_le hret] at hslots
  -- the words of the block are numbers, so only the arguments may have moved
  obtain ⟨below, block, hsplit, hbelow, hblock⟩ := forall₂_append_split hslots
  cases hblock with
  | cons ha' hblock =>
    cases ha'.eq_of_none (Word.ref?_of_toCodeAddress ha)
    obtain ⟨ys', last, rfl, hargs, hlast⟩ := forall₂_append_split hblock
    cases hlast with
    | cons hcount' hnil =>
      cases hnil
      cases hcount'.eq_of_none (Word.ref?_of_toSmallInt hcount)
      rw [hargs.length_eq] at hcount
      have hdropped : (m₂.ticked.dropped m.slots.length).slots = below := by
        rw [slots_dropped, hbelow.length_eq]
        change m₂.slots.take below.length = below
        rw [hsplit, List.take_left]
      refine ⟨rfl, ys', ?_, ?_, ⟨?_, ?_, h₂.limit⟩, hfp, ψ, hheap ▸ hM, hdropped ▸ hbelow, hargs⟩
      · rw [hsplit, hbelow.length_eq, hargs.length_eq, List.drop_length_add_append]
        simp
      · rw [hbelow.length_eq]
        exact applyPending_of_pending (m := m₂.ticked) ha hcount hsplit
      · obtain ⟨W, T, hinto⟩ := h₂.sound
        refine ⟨W, T, fun x hx => hinto x ?_⟩
        rw [hdropped] at hx
        rw [hsplit]
        simp only [List.mem_cons, List.mem_append] at hx ⊢
        tauto
      · rw [hdropped, ← hbelow.length_eq]
        change m₂.fp ≤ _
        rw [hfp]
        exact hm.fp_le

/-! ### Chains -/

/-- An application of `v` to `args` on `m` has come to an application of another value to what is
left of the arguments: as long as there are too many, the closure is called with those that saturate
it, and when this call has returned, its value is what is applied. -/
inductive Resolves (p : Program (Code w)) (k : Label) (v : Word w) (args : List (Word w))
    (m : Machine w) : Word w → List (Word w) → Machine w → Prop where
  | refl : Resolves p k v args m v args m
  | surplus {u : Word w} {us : List (Word w)} {n m₁ m₂ : Machine w} {c : ClosureView w} {need : Nat}
      {l label : Label} :
      Resolves p k v args m u us n → n.heap.closure? u = .ok (some c) →
      c.captured + need = c.arity → need < us.length → apply u us k n = .ok l m₁ →
      Goes p (above (n.slots.length + (us.length - need) + 2)) l m₁ label m₂ →
      m₂.slots.length ≤ n.slots.length + (us.length - need) + 2 →
      Resolves p k v args m m₂.result
        ((m₂.slots.drop (n.slots.length + 1)).take (us.length - need))
        (m₂.ticked.dropped n.slots.length)

/-- Arguments are used up from the left, on the machine that the chain began with. -/
theorem Resolves.resumes (hp : p.Directed) (hm : m.Valid (v :: args)) {u : Word w}
    {us : List (Word w)} (h : Resolves (p.map Body.careful) k v args m u us n) :
    n.Valid (u :: us) ∧ ∃ used, Resumes m n (args.drop used) us := by
  induction h with
  | refl => exact ⟨hm, 0, (hm.resumes.drop 1)⟩
  | @surplus u us n m₁ m₂ c need l label _ hc hneed hlt happly hgoes hret ih =>
    obtain ⟨hn, used, hresumes⟩ := ih
    have hlen : (us.drop need).length = us.length - need := List.length_drop
    have hxs : c.captured + (us.take need).length = c.arity := by
      rw [List.length_take, Nat.min_eq_left (Nat.le_of_lt hlt)]
      exact hneed
    have hys : us.drop need ≠ [] := by
      rw [Ne, List.drop_eq_nil_iff]
      omega
    rw [← List.take_append_drop need us] at hn happly
    rw [← hlen] at hgoes hret
    obtain ⟨_, ys', hys', _, hvalid, hnext⟩ :=
      apply_surplus_returns hp hn hc hxs hys happly hgoes hret
    rw [← hlen, hys']
    refine ⟨hvalid, used + need, ?_⟩
    have hdrop := hresumes.drop need
    rw [List.drop_drop] at hdrop
    exact hdrop.trans hnext

/-- An application to too many arguments enters the closure as the application to the right number
of them does, whatever its continuation. When the call has returned, having run any careful code
that names labels with code, the next step is the application of its value to the surplus
arguments, with the continuation, on the machine as it was. So a chain of such applications is
resolved from left to right: each value is applied to what is left of the arguments, on the machine
as it was. -/
theorem apply_resolves_left_to_right (hp : p.Directed) (hm : m.Valid (v :: (xs ++ ys)))
    (hc : m.heap.closure? v = .ok (some c)) (hxs : c.captured + xs.length = c.arity) (hys : ys ≠ [])
    (h : apply v (xs ++ ys) k m = .ok l m₁) :
    (l = c.entry ∧ m₁.heap = m.heap ∧
      (∃ held, m.heap.capturedArgs c = .ok held ∧ m₁.slots.drop m₁.fp = held ++ xs) ∧
      ∀ k' l' n, apply v xs k' m = .ok l' n →
        l' = l ∧ n.heap = m₁.heap ∧ n.slots.drop n.fp = m₁.slots.drop m₁.fp) ∧
    (∀ label m₂,
      Goes (p.map Body.careful) (above (m.slots.length + ys.length + 2)) l m₁ label m₂ →
      m₂.slots.length ≤ m.slots.length + ys.length + 2 →
      Goes (p.map Body.code) (above (m.slots.length + ys.length + 2)) l m₁ label m₂ ∧
      label = .applyPending ∧ ∃ ys' n, n = m₂.ticked.dropped m.slots.length ∧
        step (p.map Body.code) label m₂.ticked = apply m₂.result ys' k n ∧
        Resumes m n ys ys') ∧
    ∀ u us n, Resolves (p.map Body.careful) k v (xs ++ ys) m u us n →
      n.Valid (u :: us) ∧ ∃ used, Resumes m n ((xs ++ ys).drop used) us := by
  refine ⟨?_, fun label m₂ hgoes hret => ?_, fun u us n hchain => hchain.resumes hp hm⟩
  · obtain ⟨a, count, _, _, _, hcall⟩ := apply_surplus_eq_ok hc hxs hys h
    obtain ⟨hl, hheap, _, held, hheld, hframe⟩ :=
      apply_frame (m := m.suspended a ys count) hc hxs hcall
    refine ⟨hl, hheap, ⟨held, hheld, hframe⟩, fun k' l' n hplain => ?_⟩
    obtain ⟨hl', hheap', _, held', hheld', hframe'⟩ := apply_frame hc hxs hplain
    change m.heap.capturedArgs c = _ at hheld
    rw [hheld] at hheld'
    cases hheld'
    exact ⟨hl'.trans hl.symm, hheap'.trans hheap.symm, hframe'.trans hframe.symm⟩
  · obtain ⟨rfl, ys', _, hstep, _, hresumes⟩ := apply_surplus_returns hp hm hc hxs hys h hgoes hret
    refine ⟨hgoes.code, rfl, ys', _, rfl, ?_, hresumes⟩
    rw [step_applyPending]
    exact hstep

def applying : Desk .bits64 :=
  Outcome.state (Expr.carefulList
    [.closure ⟨8, ⟨2⟩, 1, 3⟩ [], .literal (.int 1), .literal (.int 2)]
    ⟨Outcome.state ((record (.jumped "main") >>= fun _ => provide 3) opening.ticked), {}⟩)

theorem valid_applying : applying.machine.Valid [1, 4, 8] := by
  have hstart : start (currying.map Body.careful) (blank ample) = .ok ⟨4⟩ opening :=
    Outcome.eq_ok (by decide +kernel)
  have hopening := stands_start history_ample (by decide) hstart
  refine hopening.ticked.valid (p := currying) (by decide +kernel) (by decide)
    ⟨"main", 3, _, _, rfl, Outcome.eq_ok (by decide +kernel), .operands (Outcome.eq_ok ?_)⟩
  decide +kernel

/-- The function is entered with one argument, and the identity that it returns is applied to the
other. -/
theorem apply_resolves_currying :
    currying.Directed ∧ applying.machine.Valid (1 :: ([4] ++ [8])) ∧
    ∃ c m₁ m₂, applying.machine.heap.closure? 1 = .ok (some c) ∧ c.captured + 1 = c.arity ∧
      apply 1 ([4] ++ [8]) ⟨5⟩ applying.machine = .ok ⟨2⟩ m₁ ∧
      Goes (currying.map Body.careful) (above 5) ⟨2⟩ m₁ .applyPending m₂ ∧
      ∃ ys' n, step (currying.map Body.code) .applyPending m₂.ticked =
          apply m₂.result ys' ⟨5⟩ n ∧ Resumes applying.machine n [8] ys' := by
  have hdirected : currying.Directed := by decide +kernel
  have hc : applying.machine.heap.closure? 1 = .ok (some ⟨⟨0, false⟩, ⟨0x40000007⟩, ⟨2⟩, 1⟩) := by
    decide +kernel
  have happly : apply 1 ([4] ++ [8]) ⟨5⟩ applying.machine = .ok ⟨2⟩ _ :=
    Outcome.eq_ok (by decide +kernel)
  have hlabel : (follow (currying.map Body.careful) (above 5) ⟨2⟩
      (Outcome.state (apply 1 ([4] ++ [8]) ⟨5⟩ applying.machine)) 1).map
      (fun r => (r.1, r.2.slots.length)) = some (.applyPending, 5) := by decide +kernel
  obtain ⟨_, m₂, hgoes, hboth⟩ := exists_goes_of_follow hlabel
  obtain ⟨rfl, hlen⟩ := Prod.mk.inj hboth
  have hslots : applying.machine.slots.length = 2 := by decide +kernel
  have hvalid : applying.machine.Valid (1 :: ([4] ++ [8])) := valid_applying
  have hall := apply_resolves_left_to_right hdirected hvalid hc (by decide) (by decide) happly
  rw [hslots] at hall
  obtain ⟨_, _, ys', n, _, hstep, hresumes⟩ := hall.2.1 _ m₂ hgoes (Nat.le_of_eq hlen)
  exact ⟨hdirected, valid_applying, _, _, m₂, hc, by decide, happly, hgoes, ys', n, hstep, hresumes⟩

def elastic : MachineSettings := ⟨⟨16, 64, 0.5⟩, 64⟩

/-- A function of one argument, applied to a pair and to a block of three fields. It keeps the pair in
a register across a checkpoint. The reference then points into the block, and when it has become the
result it is the first root of the next collection, which so writes over a field of the block before
the block itself is copied. -/
def straying : Program (Body .bits64) :=
  let int (n : Int) : Expr .bits64 := .literal (.int n)
  let stray : Body .bits64 :=
    [.assign "s" (.slot 0), .prealloc 10, .transfer (.call ⟨6⟩ [.register "s"] ⟨7⟩)]
  let last : Body .bits64 := [.transfer (.ret (.field (.slot 0) 2))]
  let main : Body .bits64 :=
    [.transfer (.apply (.closure ⟨8, ⟨2⟩, 1, 0⟩ [])
      [.pair (int 0) (int 0), .construct ⟨10, 3, .boxed⟩ [int 1, int 2, int 3]] ⟨5⟩)]
  let after : Body .bits64 := [.transfer (.ret .result)]
  let identity : Body .bits64 := [.transfer (.ret (.slot 0))]
  let back : Body .bits64 := [.transfer (.ret (.closure ⟨9, ⟨3⟩, 1, 0⟩ []))]
  { slots := #[{ name := "program_end" }, { name := "apply_pending" },
      { name := "stray", code := some stray }, { name := "last", code := some last },
      { name := "main", maxAlloc := 9, code := some main }, { name := "after", code := some after },
      { name := "identity", code := some identity },
      { name := "back", maxAlloc := 11, code := some back }]
    entry := ⟨4⟩
    names := .builtin }

def outset : Machine .bits64 := Outcome.state (start (straying.map Body.careful) (blank elastic))

def handing : Desk .bits64 :=
  Outcome.state (Expr.carefulList
    [.closure ⟨8, ⟨2⟩, 1, 0⟩ [], .pair (.literal (.int 0)) (.literal (.int 0)),
      .construct ⟨10, 3, .boxed⟩ [.literal (.int 1), .literal (.int 2), .literal (.int 3)]]
    ⟨Outcome.state ((record (.jumped "main") >>= fun _ => provide 9) outset.ticked), {}⟩)

theorem valid_handing : handing.machine.Valid
    [(Ref.mk 0 false).word, (Ref.mk 3 true).word, (Ref.mk 5 false).word] := by
  have hstart : start (straying.map Body.careful) (blank elastic) = .ok ⟨4⟩ outset :=
    Outcome.eq_ok (by decide +kernel)
  have H : History elastic (blank elastic : Machine .bits64) :=
    .fresh (create_blank (by decide +kernel) (by decide))
  have houtset := stands_start H (by decide) hstart
  refine houtset.ticked.valid (p := straying) (by decide +kernel) (by decide)
    ⟨"main", 9, _, _, rfl, Outcome.eq_ok (by decide +kernel), .operands (Outcome.eq_ok ?_)⟩
  decide +kernel

/-- Without care a call may change the surplus arguments that wait for it. The block is found moved
when the call has returned, but its last field is not what it was. -/
theorem apply_straying_changes_surplus :
    straying.Directed ∧ handing.machine.Valid
      ((Ref.mk 0 false).word :: ([(Ref.mk 3 true).word] ++ [(Ref.mk 5 false).word])) ∧
    ∃ c m₁ m₂ n, handing.machine.heap.closure? (Ref.mk 0 false).word = .ok (some c) ∧
      c.captured + 1 = c.arity ∧
      apply (Ref.mk 0 false).word ([(Ref.mk 3 true).word] ++ [(Ref.mk 5 false).word]) ⟨5⟩
        handing.machine = .ok ⟨2⟩ m₁ ∧
      Goes (straying.map Body.code) (above 5) ⟨2⟩ m₁ .applyPending m₂ ∧ m₂.slots.length = 5 ∧
      n = m₂.ticked.dropped 2 ∧
      step (straying.map Body.code) .applyPending m₂.ticked =
        apply m₂.result [(Ref.mk 2 false).word] ⟨5⟩ n ∧
      ¬ Resumes handing.machine n [(Ref.mk 5 false).word] [(Ref.mk 2 false).word] := by
  have hc : handing.machine.heap.closure? (Ref.mk 0 false).word =
      .ok (some ⟨⟨0, false⟩, .pack .closure 8 0, ⟨2⟩, 1⟩) := by decide +kernel
  have happly : apply (Ref.mk 0 false).word
      ([(Ref.mk 3 true).word] ++ [(Ref.mk 5 false).word]) ⟨5⟩ handing.machine = .ok ⟨2⟩ _ :=
    Outcome.eq_ok (by decide +kernel)
  have hreturned : (follow (straying.map Body.code) (above 5) ⟨2⟩
      (Outcome.state (apply (Ref.mk 0 false).word
        ([(Ref.mk 3 true).word] ++ [(Ref.mk 5 false).word]) ⟨5⟩ handing.machine)) 3).map
      (fun r => (r.1, r.2.slots, r.2.heap.space.traced ⟨2, false⟩)) =
      some (.applyPending, [0, 0] ++ 20 :: ([(Ref.mk 2 false).word] ++ [4]), [4, 8, 0]) := by
    decide +kernel
  obtain ⟨_, m₂, hgoes, hall⟩ := exists_goes_of_follow hreturned
  obtain ⟨rfl, hrest⟩ := Prod.mk.inj hall
  obtain ⟨hslots, hafter⟩ := Prod.mk.inj hrest
  have hbefore : handing.machine.heap.space.traced ⟨5, false⟩ = [4, 8, 12] := by decide +kernel
  have href : ((Ref.mk 2 false).word : Word .bits64).ref? = some ⟨2, false⟩ := by decide
  have hstep : applyPending m₂.ticked =
      apply m₂.result [(Ref.mk 2 false).word] ⟨5⟩ (m₂.ticked.dropped 2) :=
    applyPending_of_pending (m := m₂.ticked) (by decide) (by decide) hslots
  refine ⟨by decide +kernel, valid_handing, _, _, m₂, _, hc, by decide, happly, hgoes,
    by rw [hslots]; rfl, rfl, ?_, ?_⟩
  · rw [step_applyPending]
    exact hstep
  · rintro ⟨_, ψ, M, _, hargs⟩
    cases hargs with
    | cons hblock _ =>
      obtain ⟨b, hb, hmoved⟩ := hblock.of_some (a := ⟨5, false⟩) (by decide)
      cases hb.symm.trans href
      have hfields := M.traced hmoved
      rw [hbefore, show (m₂.ticked.dropped 2).heap.space.traced ⟨2, false⟩ = _ from hafter] at hfields
      -- the last field was the number 3, and collections move no numbers
      obtain _ | ⟨_, _ | ⟨_, _ | ⟨hlast, _⟩⟩⟩ := hfields
      exact absurd (hlast.eq_of_none (by decide)) (by decide)

end Trampoline.Machine
