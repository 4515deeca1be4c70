import Trampoline.Proofs.Conduct
import Trampoline.Proofs.Frames
import Trampoline.Proofs.Runs

/-!
Frame discipline: what a run leaves on the stack is a chain of frames and pending blocks.

A machine whose references are all to blocks of its heap can only enter closures with code of their
own. Then every transfer turns a chain into a chain, and slots below the frame it starts from are
changed by collections only. Both facts are proved for one step, and carried through runs by
induction.
-/

namespace Trampoline

variable {w : Width}

/-! ### Labels that transfers name -/

def Tier.branches {β : Type} : Tier β → List β
  | skip => []
  | elided branch => [branch]
  | switch arms => arms.toList.map (·.2)

def Case.branches {β : Type} (c : Case β) : List β :=
  c.immediate.branches ++ c.boxed.branches ++ c.fallback.toList

theorem Tier.mem_branches {β : Type} {arms : Std.TreeMap Nat β} {key : Nat} {branch : β}
    (h : arms[key]? = some branch) : branch ∈ (switch arms).branches :=
  List.mem_map.mpr ⟨(key, branch), Std.TreeMap.mem_toList_iff_getElem?_eq_some.mpr h, rfl⟩

theorem Case.otherwise_mem {β : Type} {c : Case β} {p : β × Route}
    (h : c.otherwise (w := w) = .ok p) : p.1 ∈ c.branches := by
  unfold otherwise at h
  cases hf : c.fallback with
  | none => rw [hf] at h; cases h
  | some branch =>
    rw [hf] at h
    cases h
    simp [branches, hf]

/-- The branch that the second tier finds is one of the case. -/
theorem Case.selectBoxed_mem {β : Type} {c : Case β} {h : Heap w} {v : Word w} {p : β × Route}
    (hp : c.selectBoxed h v = .ok p) : p.1 ∈ c.branches := by
  unfold selectBoxed at hp
  cases hb : c.boxed with
  | skip =>
    rw [hb] at hp
    exact otherwise_mem hp
  | elided branch =>
    rw [hb] at hp
    cases hp
    simp [branches, hb, Tier.branches]
  | switch arms =>
    simp only [hb] at hp
    split at hp
    · exact otherwise_mem hp
    · split at hp
      · exact otherwise_mem hp
      · split at hp
        · cases hp
        · split at hp
          · next hget =>
            cases hp
            have hmem := Tier.mem_branches hget
            simp [branches, hb, hmem]
          · exact otherwise_mem hp

/-- A case goes to one of its branches. -/
theorem Case.select_mem {β : Type} {c : Case β} {h : Heap w} {v : Word w} {p : β × Route}
    (hp : c.select h v = .ok p) : p.1 ∈ c.branches := by
  unfold select at hp
  cases hi : c.immediate with
  | skip =>
    rw [hi] at hp
    exact selectBoxed_mem hp
  | elided branch =>
    rw [hi] at hp
    cases hp
    simp [branches, hi, Tier.branches]
  | switch arms =>
    simp only [hi] at hp
    split at hp
    · next hget =>
      cases hp
      have hmem := Tier.mem_branches hget
      simp [branches, hi, hmem]
    · exact selectBoxed_mem hp

def Transfer.labels : Transfer w → List Label
  | jump label => [label]
  | call callee _ k => [callee, k]
  | tailCall callee _ => [callee]
  | branch _ ifTrue ifFalse => [ifTrue, ifFalse]
  | select c _ => c.branches
  | callClosure _ _ k => [k]
  | apply _ _ k => [k]
  | ret _ | tailCallClosure _ _ | tailApply _ _ | fail _ => []

/-- All transfers of a program name labels with code of their own. -/
def Program.Directed (p : Program (Body w)) : Prop :=
  ∀ t ∈ p.transfers, ∀ l ∈ t.labels, l.isReserved = false

instance (p : Program (Body w)) : Decidable p.Directed :=
  inferInstanceAs (Decidable (∀ t ∈ p.transfers, ∀ l ∈ t.labels, l.isReserved = false))

/-! ### Sound machines -/

theorem Pairing.matched_of_into {W : Pairing} {v : Word w} (h : v.Into W.lefts) :
    Word.Matched W.diag.Links v v := by
  cases hv : v.ref? with
  | none => exact .refl_of_none hv
  | some r => exact .moved hv hv (Pairing.links_diag.mpr ⟨h r hv, rfl⟩)

namespace Machine

/-- Every reference in the machine, and in words that are held besides, is to one of the blocks that
were made on its heap. -/
def Sound (m : Machine w) (held : List (Word w)) : Prop :=
  ∃ W : Pairing, Heap.Twins W.diag m.heap m.heap ∧
    ∀ v ∈ m.result :: (m.slots ++ held), v.Into W.lefts

/-- The slots below a depth are as they were, moved by collections. -/
def Preserves (d : Nat) (m m' : Machine w) : Prop :=
  d ≤ m'.slots.length ∧ ∃ ψ : Ref → Ref → Prop, m.heap.space.Matched m'.heap.space ψ ∧
    List.Forall₂ (Word.Matched ψ) (m.slots.take d) (m'.slots.take d)

theorem Preserves.trans {d : Nat} {m m' m'' : Machine w} (h : Preserves d m m')
    (h' : Preserves d m' m'') : Preserves d m m'' := by
  obtain ⟨_, ψ, hM, hslots⟩ := h
  obtain ⟨hlen, ψ', hM', hslots'⟩ := h'
  exact ⟨hlen, _, hM.trans hM', forall₂_trans (fun _ _ _ h h' => h.trans h') hslots hslots'⟩

theorem Preserves.mono {k d : Nat} {m m' : Machine w} (h : Preserves d m m') (hk : k ≤ d) :
    Preserves k m m' := by
  obtain ⟨hlen, ψ, hM, hslots⟩ := h
  refine ⟨hk.trans hlen, ψ, hM, ?_⟩
  have htake := List.forall₂_take k hslots
  rwa [List.take_take, List.take_take, Nat.min_eq_left hk] at htake

variable {m n : Machine w} {held : List (Word w)}

/-- A sound machine is its own twin. -/
theorem Sound.twins (h : m.Sound held) {k : Nat} (hk : k ≤ m.slots.length) :
    ∃ W, Twins (m.keeping k) m.fp W m m ∧ List.Forall₂ (Word.Matched W.Links) held held := by
  obtain ⟨W, T, hinto⟩ := h
  have hall : ∀ vs : List (Word w), (∀ v ∈ vs, v ∈ m.result :: (m.slots ++ held)) →
      List.Forall₂ (Word.Matched W.diag.Links) vs vs := fun vs hvs =>
    List.forall₂_same.mpr fun v hv => Pairing.matched_of_into (hinto v (hvs v hv))
  have hslots := hall m.slots fun v hv => .tail _ (List.mem_append_left _ hv)
  have M : Twins (m.keeping 0) m.fp W.diag m m :=
    { heap := T
      result := Pairing.matched_of_into (hinto _ (.head _))
      slots := hslots
      fp := rfl
      fp' := rfl
      names := rfl
      maxStack := rfl
      outward := ⟨rfl, rfl, rfl, [], (List.append_nil _).symm, (List.append_nil _).symm⟩
      carried := ⟨Nat.zero_le _, rfl, W.diag.Links, T.matched, fun _ b hab => ⟨b, by
        obtain ⟨ha, rfl⟩ := Pairing.links_diag.mp hab
        exact Pairing.links_diag.mpr ⟨ha, rfl⟩⟩, .nil⟩ }
  exact ⟨_, M.diag hk, Pairing.forall₂_diag
    (hall held fun v hv => .tail _ (List.mem_append_right _ hv))⟩

namespace Twins

variable {S : Scene w} {f : Nat} {W : Pairing} {vs us : List (Word w)} {v u : Word w}

theorem sound (M : Twins S f W m n) (hvs : List.Forall₂ (Word.Matched W.Links) vs us) :
    m.Sound vs := by
  refine ⟨W, M.heap.diag, fun x hx => ?_⟩
  have hall : List.Forall₂ (Word.Matched W.Links) (m.result :: (m.slots ++ vs))
      (n.result :: (n.slots ++ us)) := .cons M.result (List.rel_append M.slots hvs)
  exact Pairing.into_lefts hall x hx

theorem preserves {k : Nat} {m₀ : Machine w} (M : Twins (m₀.keeping k) f W m n) :
    Preserves k m₀ m := by
  obtain ⟨hlen, _, ψ, hM, _, hslots⟩ := M.carried
  exact ⟨hlen, ψ, hM, hslots⟩

/-- Closures enter labels with code of their own. -/
theorem closureView_eq_ok (M : Twins S f W m n) (hvu : Word.Matched W.Links v u)
    {c : ClosureView w} {m' : Machine w} (h : Machine.closureView v m = .ok c m') :
    m = m' ∧ c.entry.isReserved = false := by
  have hself := (M.diag (Nat.zero_le _)).closureView (Pairing.matched_diag hvu)
  rw [h] at hself
  obtain ⟨hm, _, hview⟩ := hself
  refine ⟨hm.symm, ?_⟩
  have hshown := hview.shown
  have henters := M.heap.diag.enters c.object ⟨_, hview.links⟩ _ _ _
    (Heap.leads_of_closure hshown)
  unfold Heap.closureAt at hshown
  split at hshown
  · have hentry := congrArg ClosureView.entry (Option.some.inj hshown)
    rw [← hentry]
    exact henters
  · cases hshown

/-- All slots of the stack are still there when a closure has been extended. -/
theorem extendSaving_eq_ok (M : Twins S f W m n) (hvu : Word.Matched W.Links v u)
    (hvs : List.Forall₂ (Word.Matched W.Links) vs us) {a : Word w} {m' : Machine w}
    (h : Machine.extendSaving v vs m = .ok a m') :
    m'.fp = m.fp ∧ ∃ ψ : Ref → Ref → Prop, List.Forall₂ (Word.Matched ψ) m.slots m'.slots := by
  have hself := (M.diag (Nat.le_refl _)).extendSaving (Pairing.matched_diag hvu)
    (Pairing.forall₂_diag hvs)
  rw [h] at hself
  obtain ⟨hlen, V, M', _⟩ := hself
  obtain ⟨_, _, ψ, _, _, hslots⟩ := M'.carried
  refine ⟨M'.fp.trans M.fp.symm, ψ, ?_⟩
  change List.Forall₂ _ (m.slots.take m.slots.length) (m'.slots.take m.slots.length) at hslots
  rw [List.take_length, ← hlen, List.take_length] at hslots
  exact hslots

end Twins

end Machine

/-! ### Transfers -/

namespace Chain

open Machine

variable {m n m' : Machine w} {args us : List (Word w)} {k l : Label} {d f₀ : Nat} {k₀ : Label}
  {S : Scene w} {f : Nat} {W : Pairing} {v u : Word w}

theorem extendSaving (M : Twins S f W m n) (hvu : Word.Matched W.Links v u)
    (hargs : List.Forall₂ (Word.Matched W.Links) args us) (C : Chain d k₀ f₀ k m.fp m.slots)
    {a : Word w} (h : Machine.extendSaving v args m = .ok a m') :
    m'.slots.length = m.slots.length ∧ Chain d k₀ f₀ k m'.fp m'.slots := by
  obtain ⟨hfp, ψ, hslots⟩ := M.extendSaving_eq_ok hvu hargs h
  rw [hfp]
  exact ⟨hslots.length_eq.symm, C.relocate hslots⟩

/-- An application leads to the entry of the closure, with a frame for it on the stack, or to the
continuation. -/
theorem apply (M : Twins S f W m n) (hvu : Word.Matched W.Links v u)
    (hargs : List.Forall₂ (Word.Matched W.Links) args us) (C : Chain d k₀ f₀ k m.fp m.slots)
    (hf : f₀ ≤ d) (hmax : (m.maxStackWords : Int) ≤ w.maxInt)
    (h : Machine.apply v args k m = .ok l m') : Chain d k₀ f₀ l m'.fp m'.slots := by
  obtain ⟨c, _, hview, h⟩ := of_bind_eq_ok h
  obtain ⟨rfl, hentry⟩ := M.closureView_eq_ok hvu hview
  cases hcmp : compare (c.captured + args.length) c.arity with
  | eq =>
    rw [hcmp] at h
    exact C.enter hf hmax hentry h
  | lt =>
    rw [hcmp] at h
    obtain ⟨a, _, hextend, h⟩ := of_bind_eq_ok h
    cases h
    exact (C.extendSaving M hvu hargs hextend).2
  | gt =>
    rw [hcmp] at h
    exact C.overApply hf hmax hentry (compare_gt_iff_gt.mp hcmp) h

theorem ret (C : Chain d k₀ f₀ k m.fp m.slots) (hd : d < m.slots.length)
    (hk : k.isReserved = false) (h : Machine.ret v m = .ok l m') :
    Chain d k₀ f₀ l m'.fp m'.slots := by
  obtain ⟨k', g, _, hleave, C'⟩ := leaveFrame (m := { m with result := v }) C hd hk
  change Machine.leaveFrame { m with result := v } = _ at h
  rw [hleave] at h
  cases h
  change Chain _ _ _ _ _ ({ m with result := v }.dropped (m.fp - 2)).slots
  rw [slots_dropped]
  exact C'

/-- A tail application goes on with the chain beneath its frame. -/
theorem tailApply (M : Twins S f W m n) (hvu : Word.Matched W.Links v u)
    (hargs : List.Forall₂ (Word.Matched W.Links) args us) (C : Chain d k₀ f₀ k m.fp m.slots)
    (hd : d < m.slots.length) (hk : k.isReserved = false) (hf : f₀ ≤ d)
    (hmax : (m.maxStackWords : Int) ≤ w.maxInt) (h : Machine.tailApply v args m = .ok l m') :
    Chain d k₀ f₀ l m'.fp m'.slots := by
  obtain ⟨c, _, hview, h⟩ := of_bind_eq_ok h
  obtain ⟨rfl, hentry⟩ := M.closureView_eq_ok hvu hview
  cases hcmp : compare (c.captured + args.length) c.arity with
  | eq =>
    rw [hcmp] at h
    exact C.tailEnter hd hk hentry h
  | lt =>
    rw [hcmp] at h
    obtain ⟨a, m₁, hextend, h⟩ := of_bind_eq_ok h
    obtain ⟨hlen, C'⟩ := C.extendSaving M hvu hargs hextend
    exact C'.ret (hlen ▸ hd) hk h
  | gt =>
    rw [hcmp] at h
    obtain ⟨k', g, _, hleave, C'⟩ := C.leaveFrame hd hk
    obtain ⟨_, _, hleft, h⟩ := of_bind_eq_ok h
    rw [hleave] at hleft
    cases hleft
    rw [← slots_dropped] at C'
    exact overApply (m := { m.dropped (m.fp - 2) with fp := g }) C' hf hmax hentry
      (compare_gt_iff_gt.mp hcmp) h

/-- A closure that is called when saturated has code at its entry. -/
theorem saturated {x : ClosureView w → Op w Label} {count : Nat} (M : Twins S f W m n)
    (hvu : Word.Matched W.Links v u)
    (h : (do
      let c ← closureView v
      if c.captured + count ≠ c.arity then fail (.assertionFailed .saturatedCall)
      x c) m = .ok l m') :
    ∃ c : ClosureView w, c.entry.isReserved = false ∧ x c m = .ok l m' := by
  obtain ⟨c, _, hview, h⟩ := of_bind_eq_ok h
  obtain ⟨rfl, hentry⟩ := M.closureView_eq_ok hvu hview
  split at h
  · cases h
  · exact ⟨c, hentry, h⟩

/-- A transfer from the code of a label turns a chain into a chain. -/
theorem perform (t : Transfer w) (ht : ∀ l ∈ t.labels, l.isReserved = false)
    (M : Twins S f W m n) (hargs : List.Forall₂ (Word.Matched W.Links) args us)
    (C : Chain d k₀ f₀ k m.fp m.slots) (hd : d < m.slots.length) (hk : k.isReserved = false)
    (hf : f₀ ≤ d) (hmax : (m.maxStackWords : Int) ≤ w.maxInt)
    (h : t.perform args m = .ok l m') : Chain d k₀ f₀ l m'.fp m'.slots := by
  -- a label with code takes the place of the one the machine is at
  have hjump : ∀ {l : Label}, l.isReserved = false → Chain d k₀ f₀ l m.fp m.slots := by
    intro l hl
    have C' := (C.refill hd hk hl (m.slots.drop m.fp)).2
    rwa [List.take_append_drop] at C'
  cases t with
  | jump label =>
    cases h
    exact hjump (ht _ (.head _))
  | call callee _ ret =>
    exact (hjump (ht ret (.tail _ (.head _)))).call hf hmax (ht callee (.head _)) h
  | tailCall callee _ => exact C.tailCall hd hk (ht callee (.head _)) h
  | ret e =>
    cases hargs with
    | nil => cases h
    | cons _ _ => exact C.ret hd hk h
  | branch e ifTrue ifFalse =>
    cases hargs with
    | nil => cases h
    | @cons v _ _ _ _ _ =>
      change Machine.branch v ifTrue ifFalse m = _ at h
      unfold Machine.branch at h
      split at h
      · cases h
        exact hjump (ht _ (.head _))
      · split at h
        · cases h
          exact hjump (ht _ (.tail _ (.head _)))
        · cases h
  | select c e =>
    cases hargs with
    | nil => cases h
    | @cons v _ _ _ _ _ =>
      obtain ⟨p, m₁, hsel, h⟩ := of_bind_eq_ok (of_get_bind_eq_ok h)
      cases hp : c.select m.heap v with
      | error e => rw [hp] at hsel; cases hsel
      | ok q =>
        rw [hp] at hsel
        cases hsel
        cases h
        exact hjump (ht _ (Case.select_mem hp))
  | callClosure closure _ ret =>
    cases hargs with
    | nil => cases h
    | cons hvu hargs =>
      obtain ⟨c, hentry, h⟩ := saturated M hvu h
      exact (hjump (ht ret (.head _))).enter hf hmax hentry h
  | tailCallClosure closure _ =>
    cases hargs with
    | nil => cases h
    | cons hvu hargs =>
      obtain ⟨c, hentry, h⟩ := saturated M hvu h
      exact C.tailEnter hd hk hentry h
  | apply closure _ ret =>
    cases hargs with
    | nil => cases h
    | cons hvu hargs => exact (hjump (ht ret (.head _))).apply M hvu hargs hf hmax h
  | tailApply closure _ =>
    cases hargs with
    | nil => cases h
    | cons hvu hargs => exact C.tailApply M hvu hargs hd hk hf hmax h
  | fail e =>
    cases hargs with
    | nil => cases h
    | cons _ _ =>
      obtain ⟨_, _, _, h⟩ := of_bind_eq_ok h
      obtain ⟨_, _, _, h⟩ := of_bind_eq_ok h
      cases h

end Chain

/-! ### Steps -/

namespace Machine

/-- A sound machine that stands at a label, on a chain that ends at depth `d`. -/
structure Stands (d : Nat) (k₀ : Label) (f₀ : Nat) (label : Label) (m : Machine w) : Prop where
  sound : m.Sound []
  chain : Chain d k₀ f₀ label m.fp m.slots
  base : f₀ ≤ d
  limit : (m.maxStackWords : Int) ≤ w.maxInt

namespace Stands

variable {d : Nat} {k₀ : Label} {f₀ : Nat} {label next : Label} {m m' c c' : Machine w}
  {W : Pairing} {p : Program (Body w)}

theorem fp_le (h : Stands d k₀ f₀ label m) : m.fp ≤ m.slots.length := h.chain.fp_le h.base

/-- Two slots of header are below the frame pointer, and the base is below them. -/
theorem le_header (h : Stands d k₀ f₀ label m) (hd : d < m.slots.length)
    (hl : label.isReserved = false) : d + 2 ≤ m.fp := by
  obtain ⟨_, _, below, _, _, _, C, _, _, hfp, _⟩ := h.chain.of_not_reserved hd hl
  have hle := C.le_length
  omega

/-- In the middle of the code of a label, when the bottom of the stack is as it was up to the frame
pointer, the chain is too. -/
theorem amid (h : Stands d k₀ f₀ label m) (hd : d < m.slots.length)
    (hl : label.isReserved = false) (M : Twins (m.keeping m.fp) m.fp W c c') :
    Stands d k₀ f₀ label c ∧ d < c.slots.length := by
  obtain ⟨hkept, hmax, ψ, _, _, hslots⟩ := M.carried
  obtain ⟨htake, C⟩ := h.chain.refill hd hl hl []
  rw [List.append_nil] at C
  have C' := C.relocate hslots
  change Chain _ _ _ _ _ (c.slots.take m.fp) at C'
  have hlen : (m.slots.take m.fp).length = (c.slots.take m.fp).length := hslots.length_eq
  have C'' := (C'.refill (hlen ▸ htake) hl hl (c.slots.drop m.fp)).2
  rw [List.take_take, Nat.min_self, List.take_append_drop, ← M.fp] at C''
  refine ⟨⟨M.sound .nil, C'', h.base, ?_⟩, ?_⟩
  · rw [hmax]
    exact h.limit
  · have hle : m.fp ≤ c.slots.length := hkept
    have hheader := h.le_header hd hl
    omega

/-- A step through the code of a label leaves what is below the current frame as it was. -/
theorem step_code (h : Stands d k₀ f₀ label m) (hp : p.Directed) (hd : d < m.slots.length)
    (hl : label ≠ .applyPending) (hstep : step (p.map Body.careful) label m = .ok next m') :
    Stands d k₀ f₀ next m' ∧ Preserves (m.fp - 2) m m' := by
  have hcode := h.chain.not_reserved hd hl
  obtain ⟨W, M, _⟩ := h.sound.twins h.fp_le
  have hagree := M.step_code p (Nat.le_refl _) hl
  obtain ⟨t, n, ht⟩ | heq := step_careful p label m
  · rw [ht] at hstep
    cases hstep
  rw [← heq, hstep] at hagree
  obtain ⟨_, t, ht, hplain, V, c, c', vs, us, M', hvs, hc, hc'⟩ := hagree
  obtain ⟨hamid, hd'⟩ := h.amid hd hcode M'
  have C := hamid.chain.perform t (hp t ht) M' hvs hd' hcode h.base hamid.limit hc
  -- the transfer may leave the frame: what is kept ends below its header
  have hlower : Twins (m.keeping (m.fp - 2)) m.fp V c c' := M'.lower (Nat.sub_le _ _)
  have hperform := t.perform_twins hplain hlower (Nat.le_refl _) hvs
  rw [hc, hc'] at hperform
  obtain ⟨_, g, V', M''⟩ := hperform
  refine ⟨⟨M''.sound .nil, C, h.base, ?_⟩, M''.preserves⟩
  rw [M''.carried.2.1]
  exact h.limit

/-- A step that takes a pending block off the stack leaves what is below the block as it was. -/
theorem step_pending (h : Stands d k₀ f₀ .applyPending m) (hd : d < m.slots.length)
    (hstep : applyPending m = .ok next m') : Stands d k₀ f₀ next m' ∧ Preserves d m m' := by
  obtain ⟨k, below, a, args, count, C, ha, hne, hc, hslots⟩ := h.chain.of_applyPending hd
  have hlen : m.slots.length = below.length + args.length + 2 := by
    rw [hslots]
    simp only [List.length_append, List.length_cons, List.length_nil]
    omega
  obtain ⟨W, M, _⟩ := h.sound.twins (k := below.length) (by omega)
  have hroom : Twins.PendingAbove m below.length := by
    intro v n hv hn hfit
    have hv := Stack.get_eq_ok _ hv
    have hlast : m.slots[m.slots.length - 1]? = some count := by
      have hsplit : m.slots = (below ++ a :: args) ++ [count] := by simp [hslots]
      rw [← List.getLast?_eq_getElem?, hsplit, List.getLast?_concat]
    rw [slots] at hlast
    rw [slots, hlast] at hv
    cases hv
    rw [hc] at hn
    cases hn
    rw [ofInt_toSmallInt hc]
    omega
  have hagree := M.applyPending hroom
  rw [hstep] at hagree
  obtain ⟨_, g, V, M'⟩ := hagree
  have hle := C.le_length
  refine ⟨⟨M'.sound .nil, ?_, h.base, ?_⟩, M'.preserves.mono hle⟩
  · rw [applyPending_of_pending ha hc hslots] at hstep
    have hargs : List.Forall₂ (Word.Matched W.Links) args args := by
      have hall := M.slots
      rw [hslots] at hall
      rw [List.forall₂_same] at hall ⊢
      intro v hv
      exact hall v (by simp [hv])
    have hdropped : (m.dropped below.length).slots = below := by
      rw [slots_dropped, hslots, List.take_left]
    have C' : Chain d k₀ f₀ k (m.dropped below.length).fp (m.dropped below.length).slots := by
      rw [hdropped]
      exact C
    exact C'.apply (M.shrunk (Nat.le_refl below.length)) M.result hargs h.base h.limit hstep
  · rw [M'.carried.2.1]
    exact h.limit

/-- Above the base a step turns a chain into a chain, and leaves the base as it was. -/
theorem step (h : Stands d k₀ f₀ label m) (hp : p.Directed) (hd : d < m.slots.length)
    (hstep : Machine.step (p.map Body.careful) label m = .ok next m') :
    Stands d k₀ f₀ next m' ∧ Preserves d m m' := by
  by_cases hl : label = .applyPending
  · subst hl
    rw [step_applyPending] at hstep
    exact h.step_pending hd hstep
  · obtain ⟨h', hkept⟩ := h.step_code hp hd hl hstep
    have hle := h.le_header hd (h.chain.not_reserved hd hl)
    exact ⟨h', hkept.mono (by omega)⟩

end Stands

end Machine

end Trampoline
