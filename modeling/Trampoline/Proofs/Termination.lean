import Trampoline.Proofs.Upkeep

/-!
An evacuation ends, whatever the words of the source are.

It is taken apart into steps: one step forwards a root, forwards a word of the block that is being
scanned, or begins the scan of a pending block. The steps keep a record of the copies and the scans.
A copy marks an offset that was not marked before, so no offset is copied from twice, and every
copied block is pending once. A step either uses up a root or a traced word, or takes a block off
the pending list; so there are finitely many steps.

Nothing is assumed of the headers and references in the source. Blocks may overlap, lead back to
themselves or reach beyond the end, where the evacuation traps.
-/

namespace Trampoline

variable {w : Width}

theorem Space.shape_eq_error {s : Space w} {r : Ref} {t : Trap w} (h : s.shape r = .error t) :
    t = .bounds := by
  simp only [shape, read] at h
  split at h
  · cases h
  · split at h
    · cases h
    · cases h
      rfl

theorem Space.slice_eq_error {s : Space w} {start len : Nat} {t : Trap w}
    (h : s.slice start len = .error t) : t = .bounds := by
  simp only [slice] at h
  split at h
  · cases h
  · cases h
    rfl

namespace Evacuation

variable {e e' : Evacuation w} {v : Word w}

/-! ### Steps -/

structure Progress (w : Width) where
  state : Evacuation w
  /-- The roots forwarded so far, the last one first. -/
  moved : List (Word w)
  /-- The roots still to be forwarded. -/
  roots : List (Word w)
  /-- The next word of the target to be forwarded in the block that is being scanned. -/
  index : Nat
  /-- How many words of that block are still to be forwarded. -/
  left : Nat
  /-- The source offset and the new place of each block that has been copied, the last one first. -/
  copies : List (Nat × Ref)
  /-- The blocks whose scan has begun, the last one first. -/
  scans : List Ref

namespace Progress

def initial (s : Space w) (used : Nat) (roots : List (Word w)) : Progress w :=
  { state := start s used, moved := [], roots, index := 0, left := 0, copies := [], scans := [] }

/-- The copies after `v` has been forwarded, which led to the state `e`. There is one more if the
target has grown. -/
def logged (k : Progress w) (v : Word w) (e : Evacuation w) : List (Nat × Ref) :=
  match v.ref? with
  | none => k.copies
  | some r =>
    if k.state.target.size < e.target.size then
      (r.offset, ⟨k.state.target.size, r.pair⟩) :: k.copies
    else k.copies

/-- One step: a root comes first, then a word of the block that is being scanned, then a pending
block. There is none when all of these are used up. -/
def step (k : Progress w) : Except (Trap w) (Option (Progress w)) :=
  match k.roots, k.left, k.state.pending with
  | v :: roots, _, _ =>
    match k.state.forward v with
    | .error t => .error t
    | .ok (u, e) =>
      .ok (some { k with state := e, moved := u :: k.moved, roots, copies := k.logged v e })
  | [], left + 1, _ =>
    if h : k.index < k.state.target.size then
      match k.state.forward k.state.target[k.index] with
      | .error t => .error t
      | .ok (u, e) =>
        .ok (some
          { k with
            state := e.stored k.index u
            index := k.index + 1
            left
            copies := k.logged k.state.target[k.index] e })
    else .error .bounds
  | [], 0, r :: pending =>
    match k.state.targetSpace.shape r with
    | .error t => .error t
    | .ok shape =>
      .ok (some
        { k with
          state := { k.state with pending }
          index := r.offset + shape.lead
          left := shape.traced
          scans := r :: k.scans })
  | [], 0, [] => .ok none

/-- `After n k k'`: from `k` it takes `n` steps to `k'`. -/
inductive After : Nat → Progress w → Progress w → Prop
  | refl (k : Progress w) : After 0 k k
  | step {n : Nat} {k k₁ k₂ : Progress w} :
      k.step = .ok (some k₁) → After n k₁ k₂ → After (n + 1) k k₂

variable {k k' : Progress w} {t : Trap w}

/-- What a step can do. -/
theorem step_eq_some (h : k.step = .ok (some k')) :
    (∃ v roots u e, k.roots = v :: roots ∧ k.state.forward v = .ok (u, e) ∧
      k' = { k with state := e, moved := u :: k.moved, roots, copies := k.logged v e }) ∨
    (∃ v left u e, k.roots = [] ∧ k.left = left + 1 ∧ k.state.target[k.index]? = some v ∧
      k.state.forward v = .ok (u, e) ∧
      k' = { k with
        state := e.stored k.index u, index := k.index + 1, left, copies := k.logged v e }) ∨
    (∃ r pending shape, k.roots = [] ∧ k.left = 0 ∧ k.state.pending = r :: pending ∧
      k.state.targetSpace.shape r = .ok shape ∧
      k' = { k with
        state := { k.state with pending }, index := r.offset + shape.lead, left := shape.traced,
        scans := r :: k.scans }) := by
  unfold step at h
  split at h
  · next v roots hroots =>
    split at h
    · cases h
    · next u e hf =>
      cases h
      exact .inl ⟨v, roots, u, e, hroots, hf, rfl⟩
  · next left hroots hleft =>
    split at h
    · next hi =>
      split at h
      · cases h
      · next u e hf =>
        cases h
        exact .inr (.inl ⟨_, left, u, e, hroots, hleft, Array.getElem?_eq_getElem hi, hf, rfl⟩)
    · cases h
  · next r pending hroots hleft hpending =>
    split at h
    · cases h
    · next shape hshape =>
      cases h
      exact .inr (.inr ⟨r, pending, shape, hroots, hleft, hpending, hshape, rfl⟩)
  · cases h

/-- Where a step can trap. -/
theorem step_eq_error (h : k.step = .error t) :
    (∃ v roots, k.roots = v :: roots ∧ k.state.forward v = .error t) ∨
    (∃ left, k.roots = [] ∧ k.left = left + 1 ∧
      (k.state.target[k.index]? = none ∧ t = .bounds ∨
        ∃ v, k.state.target[k.index]? = some v ∧ k.state.forward v = .error t)) ∨
    (∃ r pending, k.roots = [] ∧ k.left = 0 ∧ k.state.pending = r :: pending ∧
      k.state.targetSpace.shape r = .error t) := by
  unfold step at h
  split at h
  · next v roots hroots =>
    split at h
    · next hf =>
      cases h
      exact .inl ⟨v, roots, hroots, hf⟩
    · cases h
  · next left hroots hleft =>
    refine .inr (.inl ⟨left, hroots, hleft, ?_⟩)
    split at h
    · next hi =>
      split at h
      · next hf =>
        cases h
        exact .inr ⟨_, Array.getElem?_eq_getElem hi, hf⟩
      · cases h
    · next hi =>
      cases h
      exact .inl ⟨Array.getElem?_eq_none (Nat.le_of_not_lt hi), rfl⟩
  · next r pending hroots hleft hpending =>
    split at h
    · next hshape =>
      cases h
      exact .inr (.inr ⟨r, pending, hroots, hleft, hpending, hshape⟩)
    · cases h
  · cases h

theorem step_eq_none (h : k.step = .ok none) :
    k.roots = [] ∧ k.left = 0 ∧ k.state.pending = [] := by
  unfold step at h
  split at h
  · split at h <;> cases h
  · split at h
    · split at h <;> cases h
    · cases h
  · split at h <;> cases h
  · next hroots hleft hpending => exact ⟨hroots, hleft, hpending⟩

/-! ### The steps make up the evacuation -/

/-- All that is still to be done, at once. -/
def completion (k : Progress w) : Except (Trap w) (List (Word w) × Evacuation w) := do
  let (moved, e) ← k.state.forwardList k.moved k.roots
  let e ← e.scan k.index k.left
  let e ← e.drain
  return (moved, e)

theorem completion_initial (s : Space w) (used : Nat) (roots : List (Word w)) :
    (initial s used roots).completion = run s used roots := rfl

theorem forwardList_cons {done vs : List (Word w)} :
    e.forwardList done (v :: vs) =
      e.forward v >>= fun p => p.2.forwardList (p.1 :: done) vs := by
  rw [forwardList]
  cases e.forward v <;> rfl

theorem scan_succ {i n : Nat} (h : e.target[i]? = some v) :
    e.scan i (n + 1) = e.forward v >>= fun p => (p.2.stored i p.1).scan (i + 1) n := by
  obtain ⟨hi, rfl⟩ := Array.getElem?_eq_some_iff.mp h
  rw [scan, dif_pos hi]
  cases e.forward e.target[i] <;> rfl

theorem scan_eq_error {i n : Nat} (h : e.target[i]? = none) :
    e.scan i (n + 1) = .error .bounds := by
  rw [scan, dif_neg (Nat.not_lt.mpr (Array.getElem?_eq_none_iff.mp h))]

theorem completion_of_roots_eq_nil (h : k.roots = []) :
    k.completion = k.state.scan k.index k.left >>= fun e => e.drain >>= fun e' =>
      pure (k.moved.reverse, e') := by
  simp only [completion, h, forwardList]
  rfl

theorem completion_of_left_eq_zero (h : k.roots = []) (hleft : k.left = 0) :
    k.completion = k.state.drain >>= fun e => pure (k.moved.reverse, e) := by
  rw [completion_of_roots_eq_nil h, hleft]
  rfl

/-- A step leaves what is to come out unchanged. -/
theorem completion_step (h : k.step = .ok (some k')) : k'.completion = k.completion := by
  obtain ⟨v, roots, u, e, hroots, hf, rfl⟩ | ⟨v, left, u, e, hroots, hleft, hv, hf, rfl⟩ |
    ⟨r, pending, shape, hroots, hleft, hpending, hshape, rfl⟩ := step_eq_some h
  · simp only [completion, hroots, forwardList_cons, hf]
    rfl
  · rw [completion_of_roots_eq_nil hroots, hleft, scan_succ hv, hf]
    refine Eq.trans (completion_of_roots_eq_nil ?_) rfl
    exact hroots
  · rw [completion_of_left_eq_zero hroots hleft, drain_eq_bind hpending hshape, bind_assoc]
    refine Eq.trans (completion_of_roots_eq_nil ?_) rfl
    exact hroots

theorem completion_of_step_eq_none (h : k.step = .ok none) :
    k.completion = .ok (k.moved.reverse, k.state) := by
  obtain ⟨hroots, hleft, hpending⟩ := step_eq_none h
  rw [completion_of_left_eq_zero hroots hleft, drain_nil hpending]
  rfl

/-- A step that traps is where the whole evacuation traps. -/
theorem completion_of_step_eq_error (h : k.step = .error t) : k.completion = .error t := by
  obtain ⟨v, roots, hroots, hf⟩ | ⟨left, hroots, hleft, ⟨hv, rfl⟩ | ⟨v, hv, hf⟩⟩ |
    ⟨r, pending, hroots, hleft, hpending, hshape⟩ := step_eq_error h
  · simp only [completion, hroots, forwardList_cons, hf]
    rfl
  · rw [completion_of_roots_eq_nil hroots, hleft, scan_eq_error hv]
    rfl
  · rw [completion_of_roots_eq_nil hroots, hleft, scan_succ hv, hf]
    rfl
  · rw [completion_of_left_eq_zero hroots hleft, drain_eq_error hpending hshape]
    rfl

theorem After.completion_eq {n : Nat} (h : After n k k') : k'.completion = k.completion := by
  induction h with
  | refl k => rfl
  | step hstep _ ih => exact ih.trans (completion_step hstep)

/-! ### Every step uses something up -/

/-- What is left to do at most. A pending block and an unmarked offset stand for a block with as
many traced words as there can be. -/
def work (k : Progress w) : Nat :=
  k.roots.length + k.left + w.fieldRange * (k.state.unmarked + k.state.pending.length)

theorem work_initial (s : Space w) (used : Nat) (roots : List (Word w)) :
    (initial s used roots).work = roots.length + w.fieldRange * (64 * ((used + 63) / 64)) := by
  simp [work, initial, start, unmarked, Array.count_replicate_self]

/-- Every step leaves less to do. -/
theorem work_step (h : k.step = .ok (some k')) : k'.work < k.work := by
  obtain ⟨v, roots, u, e, hroots, hf, rfl⟩ | ⟨v, left, u, e, hroots, hleft, hv, hf, rfl⟩ |
    ⟨r, pending, shape, hroots, hleft, hpending, hshape, rfl⟩ := step_eq_some h
  · simp only [work, hroots, forward_budget hf, List.length_cons]
    omega
  · have hbudget := forward_budget hf
    have hstored : (e.stored k.index u).unmarked + (e.stored k.index u).pending.length =
        k.state.unmarked + k.state.pending.length := hbudget
    simp only [work, hleft, hstored]
    omega
  · have htraced := Space.traced_lt_fieldRange hshape
    have hmarks : ({ k.state with pending } : Evacuation w).unmarked = k.state.unmarked := rfl
    simp only [work, hroots, hleft, hpending, hmarks, List.length_cons, ← Nat.add_assoc,
      Nat.mul_add, Nat.mul_one]
    omega

theorem After.work_le {n : Nat} (h : After n k k') : n + k'.work ≤ k.work := by
  induction h with
  | refl k => omega
  | step hstep _ ih =>
    have := work_step hstep
    omega

/-- The steps come to an end, with nothing left to do or in a trap. -/
theorem exists_end (k : Progress w) :
    ∃ n k', After n k k' ∧ (k'.step = .ok none ∨ ∃ t, k'.step = .error t) := by
  cases hstep : k.step with
  | error t => exact ⟨0, k, .refl k, .inr ⟨t, hstep⟩⟩
  | ok next =>
    cases next with
    | none => exact ⟨0, k, .refl k, .inl hstep⟩
    | some k₁ =>
      have := work_step hstep
      obtain ⟨n, k', hafter, hend⟩ := exists_end k₁
      exact ⟨n + 1, k', .step hstep hafter, hend⟩
termination_by k.work

/-! ### What has been copied and scanned -/

/-- The record of the copies and scans agrees with the state. -/
structure Accounted (slots room : Nat) (e : Evacuation w) (copies : List (Nat × Ref))
    (scans : List Ref) : Prop where
  within : Within room e
  size : e.marked.size = slots
  marked : ∀ i, e.marked[i]? = some true ↔ i ∈ copies.map Prod.fst
  /-- No offset has been copied from twice. -/
  nodup : (copies.map Prod.fst).Nodup
  /-- A copied block has its new offset written over its first word in the source. -/
  home : ∀ c ∈ copies, e.source.cell c.1 = .ofNat c.2.offset
  /-- No two copies lie at one place. -/
  apart : (copies.map fun c => c.2.offset).Nodup
  placed : ∀ c ∈ copies, c.2.offset < e.target.size
  /-- Every copied block is either pending or has been taken up for its scan. -/
  queued : (scans ++ e.pending).Perm (copies.map Prod.snd)

variable {slots room : Nat} {copies : List (Nat × Ref)} {scans : List Ref}

theorem accounted_start (s : Space w) (used : Nat) :
    Accounted (64 * ((used + 63) / 64)) s.capacity (start s used) [] [] where
  within := ⟨rfl, Nat.zero_le _⟩
  size := Array.size_replicate
  marked i := by simp [start, Array.getElem?_replicate]
  nodup := .nil
  home := nofun
  apart := .nil
  placed := nofun
  queued := .nil

/-- A copy adds the offset that it marks and the block that it makes pending. -/
theorem Accounted.copied (A : Accounted slots room e copies scans) {r : Ref}
    {hr : r.offset < e.marked.size} (hm : e.marked[r.offset] = false) {block : List (Word w)}
    (hpos : 0 < block.length) (hroom : e.target.size + block.length ≤ e.source.capacity) :
    Accounted slots room (e.copied r hr block) ((r.offset, ⟨e.target.size, r.pair⟩) :: copies)
      scans where
  within := A.within.copied hr hroom
  size := by simpa [Evacuation.copied] using A.size
  marked i := by
    simp only [Evacuation.copied, Array.getElem?_set, List.map_cons, List.mem_cons, ← A.marked]
    split
    · next hi => simp [hi]
    · next hi => simp [Ne.symm hi]
  nodup := by
    refine List.nodup_cons.mpr ⟨fun hmem => ?_, A.nodup⟩
    have := (A.marked r.offset).mpr hmem
    simp [hr, hm] at this
  home := by
    intro c hc
    rw [Evacuation.copied]
    simp only [Space.cell_put]
    rcases List.mem_cons.mp hc with rfl | hc
    · rw [if_pos rfl]
    · have hne : c.1 ≠ r.offset := by
        rintro hi
        have := (A.marked c.1).mpr (List.mem_map_of_mem hc)
        simp [hi, hr, hm] at this
      rw [if_neg hne, A.home c hc]
  apart := by
    refine List.nodup_cons.mpr ⟨fun hmem => ?_, A.apart⟩
    obtain ⟨c, hc, hoffset⟩ := List.mem_map.mp hmem
    have := A.placed c hc
    simp only at hoffset
    omega
  placed := by
    intro c hc
    rw [size_copied]
    rcases List.mem_cons.mp hc with rfl | hc
    · simp only
      omega
    · have := A.placed c hc
      omega
  queued := List.perm_middle.trans (A.queued.cons _)

/-- Words of the target may change. -/
theorem Accounted.stored (A : Accounted slots room e copies scans) (i : Nat) (v : Word w) :
    Accounted slots room (e.stored i v) copies scans where
  within := A.within.stored i v
  size := A.size
  marked := A.marked
  nodup := A.nodup
  home := A.home
  apart := A.apart
  placed := by simpa [Evacuation.stored] using A.placed
  queued := A.queued

/-- A scan takes up a pending block. -/
theorem Accounted.scanned (A : Accounted slots room e copies scans) {r : Ref} {pending : List Ref}
    (h : e.pending = r :: pending) :
    Accounted slots room { e with pending } copies (r :: scans) where
  within := ⟨A.within.capacity, A.within.size⟩
  size := A.size
  marked := A.marked
  nodup := A.nodup
  home := A.home
  apart := A.apart
  placed := A.placed
  queued := by
    have hqueued := A.queued
    rw [h] at hqueued
    exact List.perm_middle.symm.trans hqueued

/-- The record of copies is right when a word has been forwarded. -/
theorem Accounted.logged (A : Accounted slots room k.state k.copies k.scans) {u : Word w}
    (hf : k.state.forward v = .ok (u, e)) :
    Accounted slots room e (k.logged v e) k.scans := by
  obtain rfl | ⟨r, hr, block, hv, hm, hpos, hroom, rfl⟩ := forward_eq_ok hf
  · have hlog : k.logged v k.state = k.copies := by
      unfold Progress.logged
      split
      · rfl
      · exact if_neg (Nat.lt_irrefl _)
    rw [hlog]
    exact A
  · have hgrown : k.state.target.size < (k.state.copied r hr block).target.size := by
      rw [size_copied]
      omega
    simp only [Progress.logged, hv, if_pos hgrown]
    exact A.copied hm hpos hroom

theorem Accounted.step (A : Accounted slots room k.state k.copies k.scans)
    (h : k.step = .ok (some k')) : Accounted slots room k'.state k'.copies k'.scans := by
  obtain ⟨v, roots, u, e, hroots, hf, rfl⟩ | ⟨v, left, u, e, hroots, hleft, hv, hf, rfl⟩ |
    ⟨r, pending, shape, hroots, hleft, hpending, hshape, rfl⟩ := step_eq_some h
  · exact A.logged hf
  · exact (A.logged hf).stored _ _
  · exact A.scanned hpending

theorem Accounted.after {n : Nat} (h : After n k k')
    (A : Accounted slots room k.state k.copies k.scans) :
    Accounted slots room k'.state k'.copies k'.scans := by
  induction h with
  | refl k => exact A
  | step hstep _ ih => exact ih (A.step hstep)

/-- There are no more copies than offsets that can be marked. -/
theorem Accounted.length_le (A : Accounted slots room e copies scans) : copies.length ≤ slots := by
  have hsub : copies.map Prod.fst ⊆ List.range slots := by
    intro i hi
    obtain ⟨hlt, _⟩ := Array.getElem?_eq_some_iff.mp ((A.marked i).mpr hi)
    exact List.mem_range.mpr (A.size ▸ hlt)
  simpa using (List.subperm_of_subset A.nodup hsub).length_le

theorem Accounted.scans_nodup (A : Accounted slots room e copies scans) :
    (scans.map Ref.offset).Nodup := by
  have hall : ((scans ++ e.pending).map Ref.offset).Nodup := by
    refine ((A.queued.map Ref.offset).nodup_iff).mpr ?_
    rw [List.map_map]
    exact A.apart
  rw [List.map_append] at hall
  exact hall.of_append_left

/-! ### Traps -/

/-- Copying traps only where a block reaches beyond the end of a space. -/
theorem Accounted.copy_eq_error (A : Accounted slots room e copies scans)
    (hroom : room ≤ w.maxOffset) {r : Ref} {hr : r.offset < e.marked.size}
    (h : e.copy r hr = .error t) : t = .bounds := by
  cases hshape : e.source.shape r with
  | error t' =>
    simp only [copy, hshape] at h
    cases h
    exact Space.shape_eq_error hshape
  | ok shape =>
    cases hblock : e.source.slice r.offset shape.words with
    | error t' =>
      simp only [copy, hshape, hblock, bind, Except.bind] at h
      cases h
      exact Space.slice_eq_error hblock
    | ok block =>
      by_cases hfit : e.source.capacity < e.target.size + shape.words
      · simp only [copy, hshape, hblock, bind, Except.bind, if_pos hfit] at h
        cases h
        rfl
      · have hsize := A.within.size.trans hroom
        rw [copy_eq hshape hblock (Nat.le_of_not_lt hfit) hsize] at h
        cases h

/-- Forwarding traps only outside the spaces: the offset that is written over a copied block can
always be read back. -/
theorem Accounted.forward_eq_error (A : Accounted slots room e copies scans)
    (hroom : room ≤ w.maxOffset) (h : e.forward v = .error t) : t = .bounds := by
  unfold forward at h
  split at h
  · cases h
  · next r hv =>
    split at h
    · next hr =>
      split at h
      · next hm =>
        obtain ⟨c, hc, hoffset⟩ :=
          List.mem_map.mp ((A.marked r.offset).mp (Array.getElem?_eq_some_iff.mpr ⟨hr, hm⟩))
        have hplaced := A.placed c hc
        have hsize := A.within.size
        have hm := w.maxOffset_mul
        have hhome : (e.source.cell r.offset).toNat = c.2.offset := by
          rw [← hoffset, A.home c hc, Word.toNat_ofNat, Nat.mod_eq_of_lt (by omega)]
        by_cases hread : r.offset < e.source.capacity
        · have hmoved : r.relocated (w := w) c.2.offset = .ok ⟨c.2.offset, r.pair⟩ :=
            if_pos (by omega)
          simp only [Space.read_eq hread, bind, Except.bind, hhome, hmoved] at h
          cases h
        · simp only [Space.read, if_neg hread] at h
          cases h
          rfl
      · exact A.copy_eq_error hroom h
    · cases h
      rfl

theorem Accounted.step_eq_error (A : Accounted slots room k.state k.copies k.scans)
    (hroom : room ≤ w.maxOffset) (h : k.step = .error t) : t = .bounds := by
  obtain ⟨v, roots, hroots, hf⟩ | ⟨left, hroots, hleft, ⟨hv, rfl⟩ | ⟨v, hv, hf⟩⟩ |
    ⟨r, pending, hroots, hleft, hpending, hshape⟩ := Progress.step_eq_error h
  · exact A.forward_eq_error hroom hf
  · rfl
  · exact A.forward_eq_error hroom hf
  · exact Space.shape_eq_error hshape

end Progress

open Progress

/-- Whatever is in the source and whichever the roots, the evacuation of its first `hp` words ends.

The number of steps is bounded. Along the way there are at most as many copies as there are marks,
each from another offset and to another place, and only copied blocks are scanned, each once at
most. In the end either every copied block has been scanned and the evacuation answers the moved
roots, or it traps; if the offsets of the source fit into a reference, it traps only because
something lies out of bounds. -/
theorem run_ends (s : Space w) (hp : Nat) (roots : List (Word w)) :
    (∀ n k, After n (initial s hp roots) k →
      n ≤ roots.length + w.fieldRange * (64 * ((hp + 63) / 64)) ∧
      k.copies.length ≤ 64 * ((hp + 63) / 64) ∧
      (k.copies.map Prod.fst).Nodup ∧
      (∀ i, k.state.marked[i]? = some true ↔ i ∈ k.copies.map Prod.fst) ∧
      (k.copies.map fun c => c.2.offset).Nodup ∧
      (k.scans.map Ref.offset).Nodup ∧
      (k.scans ++ k.state.pending).Perm (k.copies.map Prod.snd)) ∧
    ∃ n k, After n (initial s hp roots) k ∧
      (k.step = .ok none ∧ run s hp roots = .ok (k.moved.reverse, k.state) ∧
          k.scans.Perm (k.copies.map Prod.snd) ∨
        ∃ t, k.step = .error t ∧ run s hp roots = .error t ∧
          (s.capacity ≤ w.maxOffset → t = .bounds)) := by
  constructor
  · intro n k hafter
    have A := (accounted_start s hp).after hafter
    have hwork := hafter.work_le
    rw [work_initial] at hwork
    exact ⟨by omega, A.length_le, A.nodup, A.marked, A.apart, A.scans_nodup, A.queued⟩
  · obtain ⟨n, k, hafter, hend⟩ := (initial s hp roots).exists_end
    have A := (accounted_start s hp).after hafter
    have hrun : run s hp roots = k.completion :=
      (completion_initial s hp roots).symm.trans hafter.completion_eq.symm
    refine ⟨n, k, hafter, ?_⟩
    obtain hnone | ⟨t, herror⟩ := hend
    · left
      refine ⟨hnone, hrun.trans (completion_of_step_eq_none hnone), ?_⟩
      simpa [(step_eq_none hnone).2.2] using A.queued
    · right
      exact ⟨t, herror, hrun.trans (completion_of_step_eq_error herror),
        fun hroom => A.step_eq_error hroom herror⟩

/-- Two pairs that overlap and lead to each other. -/
def tangled : Space .bits64 := ⟨#[Ref.word ⟨1, true⟩, Ref.word ⟨0, true⟩], 16⟩

/-- Two blocks that overlap and lead to each other are copied and scanned once each. -/
theorem run_ends_tangled :
    tangled.capacity ≤ Width.maxOffset .bits64 ∧
    (∃ k, After 7 (initial tangled 2 [Ref.word ⟨0, true⟩]) k ∧ k.step = .ok none ∧
      k.copies = [(1, ⟨2, true⟩), (0, ⟨0, true⟩)] ∧ k.scans = [⟨2, true⟩, ⟨0, true⟩] ∧
      k.copies.length ≤ 64 ∧ (k.copies.map Prod.fst).Nodup ∧ (k.scans.map Ref.offset).Nodup) ∧
    ((∃ moved e, run tangled 2 [Ref.word ⟨0, true⟩] = .ok (moved, e)) ∨
      run tangled 2 [Ref.word ⟨0, true⟩] = .error .bounds) := by
  have hcapacity : tangled.capacity ≤ Width.maxOffset .bits64 := by decide
  obtain ⟨hevery, _, _, _, hend⟩ := run_ends tangled 2 [Ref.word ⟨0, true⟩]
  refine ⟨hcapacity, ?_, ?_⟩
  · -- the root, the first pair with its two words, the second with its two words
    have hafter : After 7 (initial tangled 2 [Ref.word ⟨0, true⟩]) _ :=
      .step rfl <| .step rfl <| .step rfl <| .step rfl <| .step rfl <| .step rfl <| .step rfl <|
        .refl _
    obtain ⟨_, hcopies, honce, _, _, hscans, _⟩ := hevery 7 _ hafter
    exact ⟨_, hafter, rfl, rfl, rfl, hcopies, honce, hscans⟩
  · obtain ⟨_, hrun, _⟩ | ⟨t, _, hrun, hbounds⟩ := hend
    · exact .inl ⟨_, _, hrun⟩
    · exact .inr (hbounds hcapacity ▸ hrun)

end Evacuation

end Trampoline
