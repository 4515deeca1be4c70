import Trampoline.Proofs.Discovery

/-!
An evacuation carries the reachable graph into the target.

While it runs, every copied block has a home in the target, found in the source where the block was.
A copied block is gray while it is pending, black once its traced words have been forwarded, and in
between while it is scanned. What has been copied lies in the target in the order of copying, so the
homes never change. When nothing is pending, no reference of a copied block leads back into the
source: the copied blocks are exactly the reachable ones, in the order of their discovery.
-/

namespace Trampoline.Evacuation

variable {w : Width}

/-- Where the block at a source offset lies in the target, once it has been copied. -/
def home (e : Evacuation w) (o : Nat) : Nat := (e.source.cell o).toNat

def copied (e : Evacuation w) (r : Ref) (h : r.offset < e.marked.size) (block : List (Word w)) :
    Evacuation w :=
  { source := e.source.put r.offset (.ofNat e.target.size)
    target := e.target ++ block
    marked := e.marked.set r.offset true
    pending := ⟨e.target.size, r.pair⟩ :: e.pending }

def stored (e : Evacuation w) (i : Nat) (v : Word w) : Evacuation w :=
  { e with target := e.target.setIfInBounds i v }

/-- What holds of a partial evacuation of `s`. `done r` traced words of a copied block have been
forwarded: none of a gray one, all of a black one, some of the one being scanned. -/
structure Colored (s : Space w) (stop : Nat) (D : Set Ref) (e : Evacuation w)
    (blocks gray : List Ref) (scanning : Option Ref) (done : Ref → Nat) : Prop where
  capacity : e.source.capacity = s.capacity
  size : stop ≤ e.marked.size
  nodup : blocks.Nodup
  valid : ∀ r ∈ blocks, r ∈ D
  marked : ∀ i, e.marked[i]? = some true ↔ ∃ r ∈ blocks, r.offset = i
  intact : ∀ i, (∀ r ∈ blocks, r.offset ≠ i) → e.source.cell i = s.cell i
  placed : ∀ front r back, blocks = front ++ r :: back →
    e.source.cell r.offset = .ofNat (s.total front)
  full : e.target.size = s.total blocks
  pending : e.pending = gray.map (Ref.move e.home)
  gray_nodup : gray.Nodup
  gray_done : ∀ r ∈ gray, r ∈ blocks ∧ done r = 0 ∧ some r ≠ scanning
  black_done : ∀ r ∈ blocks, r ∉ gray → some r ≠ scanning → done r = (s.shapeAt r).traced
  white_done : ∀ r, r ∉ blocks → done r = 0
  current : ∀ r, scanning = some r → r ∈ blocks
  word : ∀ r ∈ blocks, ∀ i < s.extent r, e.targetSpace.cell (e.home r.offset + i) =
    if (s.shapeAt r).lead ≤ i ∧ i < (s.shapeAt r).lead + done r
    then (s.cell (r.offset + i)).move e.home else s.cell (r.offset + i)
  forwarded : ∀ r ∈ blocks, ∀ i < done r,
    (s.cell (r.offset + (s.shapeAt r).lead + i)).Into {c | c ∈ blocks}

theorem copy_eq {e : Evacuation w} {r : Ref} {h : r.offset < e.marked.size} {shape : Shape}
    {block : List (Word w)} (hshape : e.source.shape r = .ok shape)
    (hblock : e.source.slice r.offset shape.words = .ok block)
    (hroom : e.target.size + shape.words ≤ e.source.capacity)
    (hoffset : e.target.size ≤ w.maxOffset) :
    e.copy r h = .ok ((⟨e.target.size, r.pair⟩ : Ref).word, e.copied r h block) := by
  simp only [copy, hshape, hblock, bind, Except.bind, pure, Except.pure, Ref.relocated,
    Ref.checked, if_pos hoffset, if_neg (Nat.not_lt.mpr hroom)]
  rfl

section

variable {s : Space w} {stop : Nat} {D : Set Ref} {e : Evacuation w} {blocks gray : List Ref}
  {scanning : Option Ref} {done : Ref → Nat}

/-- A word that has been written over the front of a copied block is read back as its home. -/
theorem Colored.home_eq (L : s.Layout stop D) (hstop : stop ≤ w.maxOffset)
    (C : Colored s stop D e blocks gray scanning done) {front back : List Ref} {r : Ref}
    (h : blocks = front ++ r :: back) : e.home r.offset = s.total front := by
  have hle : s.total blocks ≤ stop := L.total_le C.nodup C.valid
  have hm := w.maxOffset_mul
  rw [h, Space.total_append, Space.total_cons] at hle
  rw [home, C.placed front r back h, Word.toNat_ofNat, Nat.mod_eq_of_lt (by omega)]

theorem Colored.home_le (L : s.Layout stop D) (hstop : stop ≤ w.maxOffset)
    (C : Colored s stop D e blocks gray scanning done) {r : Ref} (h : r ∈ blocks) :
    e.home r.offset + s.extent r ≤ e.target.size := by
  obtain ⟨front, back, hb⟩ := List.append_of_mem h
  rw [C.home_eq L hstop hb, C.full, hb, Space.total_append, Space.total_cons]
  omega

/-- Copied blocks lie apart in the target too. -/
theorem Colored.home_apart (L : s.Layout stop D) (hstop : stop ≤ w.maxOffset)
    (C : Colored s stop D e blocks gray scanning done) {a b : Ref} (ha : a ∈ blocks)
    (hb : b ∈ blocks) (hne : a ≠ b) :
    e.home a.offset + s.extent a ≤ e.home b.offset ∨
      e.home b.offset + s.extent b ≤ e.home a.offset := by
  obtain ⟨front, back, h⟩ := List.append_of_mem ha
  have hmem : b ∈ front ∨ b ∈ back := by
    rw [h] at hb
    rcases List.mem_append.mp hb with hb | hb
    · exact .inl hb
    · rcases List.mem_cons.mp hb with hb | hb
      · exact absurd hb.symm hne
      · exact .inr hb
  rcases hmem with hb | hb
  · obtain ⟨p, q, hp⟩ := List.append_of_mem hb
    have h' : blocks = p ++ b :: (q ++ a :: back) := by rw [h, hp]; simp
    rw [C.home_eq L hstop h, C.home_eq L hstop h', hp, Space.total_append, Space.total_cons]
    omega
  · obtain ⟨p, q, hp⟩ := List.append_of_mem hb
    have h' : blocks = (front ++ a :: p) ++ b :: q := by rw [h, hp]; simp
    rw [C.home_eq L hstop h, C.home_eq L hstop h', Space.total_append, Space.total_cons]
    omega

/-- The homes of copied blocks stay when more blocks are copied. -/
theorem Colored.home_stable (L : s.Layout stop D) (hstop : stop ≤ w.maxOffset)
    (C : Colored s stop D e blocks gray scanning done) {e' : Evacuation w}
    {more gray' : List Ref} {scanning' : Option Ref} {done' : Ref → Nat}
    (C' : Colored s stop D e' (blocks ++ more) gray' scanning' done') {r : Ref} (h : r ∈ blocks) :
    e'.home r.offset = e.home r.offset := by
  obtain ⟨front, back, hb⟩ := List.append_of_mem h
  have hb' : blocks ++ more = front ++ r :: (back ++ more) := by rw [hb]; simp
  rw [C.home_eq L hstop hb, C'.home_eq L hstop hb']

/-- The words of a block that has not been copied are still those of the source. -/
theorem Colored.intact_block (L : s.Layout stop D)
    (C : Colored s stop D e blocks gray scanning done) {r : Ref} (hr : r ∈ D) (hnew : r ∉ blocks)
    {i : Nat} (hi : i < s.extent r) : e.source.cell (r.offset + i) = s.cell (r.offset + i) := by
  apply C.intact
  intro x hx he
  have : x = r := L.not_inside hr (C.valid x hx) hi he
  exact hnew (this ▸ hx)

theorem home_copied_self (h : w.modulus > e.target.size) {r : Ref} {hr : r.offset < e.marked.size}
    {block : List (Word w)} : (e.copied r hr block).home r.offset = e.target.size := by
  rw [home, copied]
  simp only [Space.cell_put, if_true]
  rw [Word.toNat_ofNat, Nat.mod_eq_of_lt h]

theorem home_copied_ne {r : Ref} {hr : r.offset < e.marked.size} {block : List (Word w)} {o : Nat}
    (h : o ≠ r.offset) : (e.copied r hr block).home o = e.home o := by
  rw [home, copied]
  simp only [Space.cell_put, if_neg h]
  rfl

theorem cell_copied_left {r : Ref} {hr : r.offset < e.marked.size} {block : List (Word w)} {i : Nat}
    (h : i < e.target.size) :
    (e.copied r hr block).targetSpace.cell i = e.targetSpace.cell i := by
  simp only [targetSpace, copied, Space.cell, Array.getD_eq_getD_getElem?]
  rw [← Array.getElem?_toList, Array.toList_appendList,
    List.getElem?_append_left (by simpa using h), Array.getElem?_toList]

theorem cell_copied_right {r : Ref} {hr : r.offset < e.marked.size} {block : List (Word w)} {i : Nat}
    (h : i < block.length) :
    (e.copied r hr block).targetSpace.cell (e.target.size + i) = block[i] := by
  simp only [targetSpace, copied, Space.cell, Array.getD_eq_getD_getElem?]
  rw [← Array.getElem?_toList, Array.toList_appendList, List.getElem?_append_right (by simp)]
  simp [h]

/-- Copying a block makes it gray. -/
theorem Colored.copy (L : s.Layout stop D) (hstop : stop ≤ w.maxOffset)
    (C : Colored s stop D e blocks gray scanning done) {r : Ref} (hr : r ∈ D) (hnew : r ∉ blocks)
    (hsize : r.offset < e.marked.size) :
    Colored s stop D (e.copied r hsize (s.segment r.offset (s.extent r))) (blocks ++ [r]) (r :: gray)
      scanning done := by
  have hoff : ∀ x ∈ blocks, x.offset ≠ r.offset := by
    intro x hx he
    exact hnew (L.eq_of_offset (C.valid x hx) hr he ▸ hx)
  have htarget : e.target.size < w.modulus := by
    have hle : s.total blocks ≤ stop := L.total_le C.nodup C.valid
    have hm := w.maxOffset_mul
    rw [C.full]
    omega
  have hhome : ∀ x ∈ blocks,
      (e.copied r hsize (s.segment r.offset (s.extent r))).home x.offset = e.home x.offset :=
    fun x hx => home_copied_ne (hoff x hx)
  have hscan : some r ≠ scanning := fun h => hnew (C.current r h.symm)
  refine ⟨?_, ?_, ?_, ?_, ?_, ?_, ?_, ?_, ?_, ?_, ?_, ?_, ?_, ?_, ?_, ?_⟩
  · simp only [copied, Space.put_capacity, C.capacity]
  · simp only [copied, Array.size_set, C.size]
  · rw [List.nodup_append]
    refine ⟨C.nodup, List.nodup_singleton r, ?_⟩
    rintro a ha b hb rfl
    exact hnew (List.mem_singleton.mp hb ▸ ha)
  · intro x hx
    rcases List.mem_append.mp hx with hx | hx
    · exact C.valid x hx
    · exact List.mem_singleton.mp hx ▸ hr
  · intro i
    simp only [copied, Array.getElem?_set, List.mem_append, List.mem_singleton]
    by_cases hi : r.offset = i
    · rw [if_pos hi]
      exact ⟨fun _ => ⟨r, .inr rfl, hi⟩, fun _ => rfl⟩
    · rw [if_neg hi, C.marked i]
      constructor
      · rintro ⟨x, hx, hxi⟩
        exact ⟨x, .inl hx, hxi⟩
      · rintro ⟨x, hx | rfl, hxi⟩
        · exact ⟨x, hx, hxi⟩
        · exact absurd hxi hi
  · intro i hi
    have hri : i ≠ r.offset := fun h => hi r (by simp) h.symm
    simp only [copied, Space.cell_put, if_neg hri]
    exact C.intact i fun x hx => hi x (List.mem_append_left _ hx)
  · intro front x back hb
    rcases List.eq_nil_or_concat back with rfl | ⟨back', y, rfl⟩
    · obtain ⟨rfl, hx⟩ := List.append_inj' hb rfl
      cases hx
      simp only [copied, Space.cell_put, if_true, C.full]
    · have hb' : blocks = front ++ x :: back' := by
        have hl : blocks ++ [r] = (front ++ x :: back') ++ [y] := by rw [hb]; simp
        exact (List.append_inj' hl rfl).1
      have hx : x ∈ blocks := by rw [hb']; simp
      simp only [copied, Space.cell_put, if_neg (hoff x hx)]
      exact C.placed front x back' hb'
  · have hlen : (e.target ++ s.segment r.offset (s.extent r)).toList.length =
        e.target.size + s.extent r := by simp
    rw [Space.total_append, Space.total_cons, Space.total_nil, ← C.full]
    exact hlen
  · rw [List.map_cons, Ref.move, home_copied_self htarget]
    have hmap : gray.map (Ref.move (e.copied r hsize (s.segment r.offset (s.extent r))).home) =
        gray.map (Ref.move e.home) := by
      apply List.map_congr_left
      intro x hx
      rw [Ref.move, Ref.move, hhome x (C.gray_done x hx).1]
    rw [hmap, ← C.pending]
    rfl
  · exact List.nodup_cons.mpr ⟨fun h => hnew (C.gray_done r h).1, C.gray_nodup⟩
  · intro x hx
    rcases List.mem_cons.mp hx with rfl | hx
    · exact ⟨by simp, C.white_done x hnew, hscan⟩
    · obtain ⟨hb, hd, hs⟩ := C.gray_done x hx
      exact ⟨List.mem_append_left _ hb, hd, hs⟩
  · intro x hx hg hs
    rw [List.mem_cons, not_or] at hg
    rcases List.mem_append.mp hx with hx | hx
    · exact C.black_done x hx hg.2 hs
    · exact absurd (List.mem_singleton.mp hx) hg.1
  · intro x hx
    exact C.white_done x fun h => hx (List.mem_append_left _ h)
  · intro x hx
    exact List.mem_append_left _ (C.current x hx)
  · intro x hx i hi
    rcases List.mem_append.mp hx with hx | hx
    · have hlt := C.home_le L hstop hx
      rw [hhome x hx, cell_copied_left (by omega), C.word x hx i hi]
      split
      · next hdone =>
        apply Word.move_congr
        intro c hc
        have hcb : c ∈ blocks := by
          apply C.forwarded x hx (i - (s.shapeAt x).lead) (by omega) c
          rw [← hc]
          congr 2
          omega
        exact (hhome c hcb).symm
      · rfl
    · rw [List.mem_singleton] at hx
      subst hx
      rw [home_copied_self htarget, cell_copied_right (by simpa using hi), Space.getElem_segment,
        C.white_done x hnew, if_neg (by omega)]
  · intro x hx i hi
    rcases List.mem_append.mp hx with hx | hx
    · exact (C.forwarded x hx i hi).mono fun c hc => List.mem_append_left _ hc
    · rw [List.mem_singleton] at hx
      subst hx
      rw [C.white_done x hnew] at hi
      omega

/-- Forwarding a word moves it to the home of its block, which is copied first if it has to be. -/
theorem Colored.forward (L : s.Layout stop D) (hstop : stop ≤ w.maxOffset)
    (hcap : stop ≤ s.capacity) (C : Colored s stop D e blocks gray scanning done) {v : Word w}
    (hv : v.Into D) :
    ∃ e' more, e.forward v = .ok (v.move e'.home, e') ∧
      Colored s stop D e' (blocks ++ more) (more ++ gray) scanning done ∧
      v.Into {c | c ∈ blocks ++ more} ∧ (∀ r ∈ more, v.ref? = some r) ∧
      Frontier.visit ⟨blocks, gray⟩ v = ⟨blocks ++ more, more ++ gray⟩ := by
  cases hr : v.ref? with
  | none =>
    refine ⟨e, [], ?_, by simpa using C, Word.into_of_none hr, by simp,
      by simp [Frontier.visit_of_none hr]⟩
    simp only [Evacuation.forward, hr, Word.move_of_none hr]
  | some r =>
    have hD : r ∈ D := hv r hr
    have hwithin := L.within r hD
    have hpos := s.extent_pos r
    have hsize : r.offset < e.marked.size := by have := C.size; omega
    have htotal := L.total_le C.nodup C.valid
    by_cases hb : r ∈ blocks
    · -- the block has a home already
      have hmark : e.marked[r.offset] = true := by
        have h := (C.marked r.offset).mpr ⟨r, hb, rfl⟩
        rw [Array.getElem?_eq_getElem hsize] at h
        exact Option.some.inj h
      have hhome : e.home r.offset ≤ w.maxOffset := by
        have := C.home_le L hstop hb
        have := C.full
        omega
      refine ⟨e, [], ?_, by simpa using C, ?_, by simp,
        Frontier.visit_of_mem hr hb |>.trans (by simp)⟩
      · have hread : e.source.read r.offset = .ok (e.source.cell r.offset) :=
          Space.read_eq (by rw [C.capacity]; omega)
        have hmoved : r.relocated (w := w) (e.source.cell r.offset).toNat = .ok (r.move e.home) := by
          exact if_pos hhome
        simp only [Evacuation.forward, hr, dif_pos hsize, hmark, if_true, hread, bind, Except.bind,
          hmoved, Word.move_of_some hr]
        rfl
      · intro c hc
        rw [hr] at hc
        cases hc
        simpa using hb
    · have hmark : e.marked[r.offset] = false := by
        cases hm : e.marked[r.offset] with
        | false => rfl
        | true =>
          obtain ⟨x, hx, ho⟩ := (C.marked r.offset).mp (by rw [Array.getElem?_eq_getElem hsize, hm])
          exact absurd (L.eq_of_offset (C.valid x hx) hD ho ▸ hx) hb
      have hcells : ∀ i < s.extent r, e.source.cell (r.offset + i) = s.cell (r.offset + i) :=
        fun i hi => C.intact_block L hD hb hi
      have hshape : e.source.shape r = .ok (s.shapeAt r) := by
        rw [Space.shape_eq (by rw [C.capacity]; omega)]
        congr 1
        exact Space.shapeAt_congr rfl fun _ => hcells 0 hpos
      have hblock : e.source.slice r.offset (s.shapeAt r).words =
          .ok (s.segment r.offset (s.extent r)) := by
        rw [Space.slice_eq (by rw [C.capacity]; exact Nat.le_trans hwithin hcap)]
        congr 1
        exact Space.segment_congr hcells
      have hmore : s.total (blocks ++ [r]) ≤ stop := by
        apply L.total_le
        · rw [List.nodup_append]
          refine ⟨C.nodup, List.nodup_singleton r, ?_⟩
          rintro a ha b hb' rfl
          exact hb (List.mem_singleton.mp hb' ▸ ha)
        · intro x hx
          rcases List.mem_append.mp hx with hx | hx
          · exact C.valid x hx
          · exact List.mem_singleton.mp hx ▸ hD
      rw [Space.total_append, Space.total_cons, Space.total_nil] at hmore
      have hroom : e.target.size + (s.shapeAt r).words ≤ e.source.capacity := by
        rw [C.full, C.capacity]
        change s.total blocks + s.extent r ≤ s.capacity
        omega
      have hoffset : e.target.size ≤ w.maxOffset := by rw [C.full]; omega
      have hm := w.maxOffset_mul
      have hmove : (v.move (e.copied r hsize (s.segment r.offset (s.extent r))).home) =
          (⟨e.target.size, r.pair⟩ : Ref).word := by
        rw [Word.move_of_some hr, Ref.move, home_copied_self (by omega)]
      refine ⟨e.copied r hsize (s.segment r.offset (s.extent r)), [r], ?_,
        C.copy L hstop hD hb hsize, ?_, ?_, Frontier.visit_of_not_mem hr hb⟩
      · rw [hmove, ← copy_eq hshape hblock hroom hoffset]
        simp only [Evacuation.forward, hr, dif_pos hsize, hmark]
        rfl
      · intro c hc
        rw [hr] at hc
        cases hc
        simp
      · intro x hx
        rw [List.mem_singleton.mp hx]

theorem cell_stored {i : Nat} (hi : i < e.target.size) (v : Word w) (j : Nat) :
    (e.stored i v).targetSpace.cell j = if j = i then v else e.targetSpace.cell j := by
  simp only [stored, Space.cell, targetSpace, Array.getD_eq_getD_getElem?,
    Array.getElem?_setIfInBounds]
  by_cases hj : j = i
  · rw [if_pos hj, if_pos hj.symm, if_pos hi]
    rfl
  · rw [if_neg hj, if_neg (Ne.symm hj)]

/-- Writing a forwarded word back is one step of a scan. -/
theorem Colored.store (L : s.Layout stop D) (hstop : stop ≤ w.maxOffset) {r : Ref}
    (C : Colored s stop D e blocks gray (some r) done) (hlt : done r < (s.shapeAt r).traced)
    (hinto : (s.cell (r.offset + (s.shapeAt r).lead + done r)).Into {c | c ∈ blocks}) :
    Colored s stop D
      (e.stored (e.home r.offset + (s.shapeAt r).lead + done r)
        ((s.cell (r.offset + (s.shapeAt r).lead + done r)).move e.home))
      blocks gray (some r) (Function.update done r (done r + 1)) := by
  have hr : r ∈ blocks := C.current r rfl
  have hdone : ∀ x, x ≠ r → Function.update done r (done r + 1) x = done x :=
    fun x hx => Function.update_of_ne hx _ _
  have hext := s.extent_eq r
  have hfit := C.home_le L hstop hr
  refine ⟨C.capacity, C.size, C.nodup, C.valid, C.marked, C.intact, C.placed, ?_, C.pending,
    C.gray_nodup, ?_, ?_, ?_, C.current, ?_, ?_⟩
  · rw [stored, Array.size_setIfInBounds, C.full]
  · intro x hx
    obtain ⟨hb, hd, hs⟩ := C.gray_done x hx
    refine ⟨hb, ?_, hs⟩
    rw [hdone x fun h => hs (h ▸ rfl), hd]
  · intro x hx hg hs
    rw [hdone x fun h => hs (h ▸ rfl)]
    exact C.black_done x hx hg hs
  · intro x hx
    rw [hdone x fun h => hx (h ▸ hr)]
    exact C.white_done x hx
  · intro x hx i hi
    change Space.cell _ (e.home x.offset + i) = _
    rw [cell_stored (by omega)]
    by_cases hxr : x = r
    · subst hxr
      rw [Function.update_self]
      by_cases hi' : i = (s.shapeAt x).lead + done x
      · rw [if_pos (by omega), if_pos (by omega), hi', Nat.add_assoc]
        rfl
      · rw [if_neg (by omega), C.word x hx i hi]
        have hiff : ((s.shapeAt x).lead ≤ i ∧ i < (s.shapeAt x).lead + done x) ↔
            ((s.shapeAt x).lead ≤ i ∧ i < (s.shapeAt x).lead + (done x + 1)) := by omega
        simp only [hiff]
        rfl
    · have hfx := C.home_le L hstop hx
      have hap := C.home_apart L hstop hx hr hxr
      rw [hdone x hxr, if_neg (by omega), C.word x hx i hi]
      rfl
  · intro x hx i hi
    by_cases hxr : x = r
    · subst hxr
      rw [Function.update_self] at hi
      by_cases hi' : i = done x
      · rw [hi']
        exact hinto
      · exact C.forwarded x hx i (by omega)
    · rw [hdone x hxr] at hi
      exact C.forwarded x hx i hi

/-- Scanning the rest of a block forwards it all. What is copied on the way is referred to by it. -/
theorem Colored.scan (L : s.Layout stop D) (hstop : stop ≤ w.maxOffset) (hcap : stop ≤ s.capacity)
    {r : Ref} {n : Nat} (C : Colored s stop D e blocks gray (some r) done)
    (hn : done r + n = (s.shapeAt r).traced) :
    ∃ e' more gray' done',
      e.scan (e.home r.offset + (s.shapeAt r).lead + done r) n = .ok e' ∧
      Colored s stop D e' (blocks ++ more) gray' (some r) done' ∧
      done' r = (s.shapeAt r).traced ∧ (∀ x ∈ more, ∃ v ∈ s.traced r, v.ref? = some x) ∧
      Frontier.visitAll ⟨blocks, gray⟩ ((s.traced r).drop (done r)) = ⟨blocks ++ more, gray'⟩ := by
  induction n generalizing e blocks gray done with
  | zero =>
    have hrest : (s.traced r).drop (done r) = [] := by
      rw [List.drop_eq_nil_iff, Space.traced, Space.length_segment]
      omega
    exact ⟨e, [], gray, done, rfl, by simpa using C, by omega, by simp, by simp [hrest]⟩
  | succ n ih =>
    have hr : r ∈ blocks := C.current r rfl
    have hfit := C.home_le L hstop hr
    have hext := s.extent_eq r
    have hi : e.home r.offset + (s.shapeAt r).lead + done r < e.target.size := by omega
    have hword : e.target[e.home r.offset + (s.shapeAt r).lead + done r] =
        s.cell (r.offset + (s.shapeAt r).lead + done r) := by
      have h := C.word r hr ((s.shapeAt r).lead + done r) (by omega)
      rw [if_neg (by omega), ← Nat.add_assoc, ← Nat.add_assoc] at h
      rw [← h]
      simp [Space.cell, targetSpace, hi]
    have htraced : s.cell (r.offset + (s.shapeAt r).lead + done r) ∈ s.traced r :=
      Space.mem_traced.mpr ⟨done r, by omega, rfl⟩
    obtain ⟨e₁, more, hf, C₁, hinto, hmore, hvisit⟩ :=
      C.forward L hstop hcap (L.closed r (C.valid r hr) _ htraced)
    have hhome : e₁.home r.offset = e.home r.offset := C.home_stable L hstop C₁ hr
    have C₂ := C₁.store L hstop (by omega) hinto
    have hstep : done r + 1 + n = (s.shapeAt r).traced := by omega
    obtain ⟨e', more', gray', done', hs, C', hd, hmore', hrest⟩ :=
      ih C₂ (by rw [Function.update_self]; exact hstep)
    refine ⟨e', more ++ more', gray', done', ?_, by rw [← List.append_assoc]; exact C', hd, ?_, ?_⟩
    · rw [Function.update_self, show (e₁.stored _ _).home r.offset = e₁.home r.offset from rfl,
        hhome] at hs
      simp only [Evacuation.scan, dif_pos hi, hword, hf]
      rw [← hs]
      rfl
    · intro x hx
      rcases List.mem_append.mp hx with hx | hx
      · exact ⟨_, htraced, hmore x hx⟩
      · exact hmore' x hx
    · rw [Function.update_self] at hrest
      rw [Space.drop_traced (by omega), Frontier.visitAll_cons, hvisit, hrest, List.append_assoc]

theorem drain_nil (h : e.pending = []) : e.drain = .ok e := by
  rw [drain]
  split
  · rfl
  · next hp => rw [h] at hp; cases hp

/-- Draining goes on with a scan of the first pending block. -/
theorem drain_eq_bind {p : Ref} {rest : List Ref} (h : e.pending = p :: rest) {shape : Shape}
    (hshape : e.targetSpace.shape p = .ok shape) :
    e.drain = { e with pending := rest }.scan (p.offset + shape.lead) shape.traced >>= drain := by
  rw [drain]
  split
  · next hp => cases h.symm.trans hp
  · next hp =>
    cases h.symm.trans hp
    simp only [hshape]
    split
    · next hs => rw [hs]; rfl
    · next hs => rw [hs]; rfl

theorem drain_cons {p : Ref} {rest : List Ref} (h : e.pending = p :: rest) {shape : Shape}
    (hshape : e.targetSpace.shape p = .ok shape) {e' : Evacuation w}
    (hscan : { e with pending := rest }.scan (p.offset + shape.lead) shape.traced = .ok e') :
    e.drain = e'.drain := by
  rw [drain_eq_bind h hshape, hscan]
  rfl

theorem drain_eq_error {p : Ref} {rest : List Ref} (h : e.pending = p :: rest) {t : Trap w}
    (hshape : e.targetSpace.shape p = .error t) : e.drain = .error t := by
  rw [drain]
  split
  · next hp => cases h.symm.trans hp
  · next hp =>
    cases h.symm.trans hp
    simp only [hshape]

/-- The block that is next in line, while the others stay gray. -/
theorem Colored.next {r : Ref} {rest : List Ref}
    (C : Colored s stop D e blocks (r :: rest) none done) :
    Colored s stop D { e with pending := rest.map (Ref.move e.home) } blocks rest (some r) done := by
  have hnd := List.nodup_cons.mp C.gray_nodup
  refine ⟨C.capacity, C.size, C.nodup, C.valid, C.marked, C.intact, C.placed, C.full, rfl, hnd.2,
    ?_, ?_, C.white_done, ?_, C.word, C.forwarded⟩
  · intro x hx
    obtain ⟨hb, hd, _⟩ := C.gray_done x (List.mem_cons_of_mem _ hx)
    refine ⟨hb, hd, fun h => hnd.1 ?_⟩
    rw [← Option.some.inj h]
    exact hx
  · intro x hx hg hs
    apply C.black_done x hx _ (by simp)
    intro h
    rcases List.mem_cons.mp h with rfl | h
    · exact hs rfl
    · exact hg h
  · rintro x hx
    cases hx
    exact (C.gray_done r List.mem_cons_self).1

/-- A block whose traced words are all forwarded is black. -/
theorem Colored.finish {r : Ref} (C : Colored s stop D e blocks gray (some r) done)
    (h : done r = (s.shapeAt r).traced) : Colored s stop D e blocks gray none done := by
  refine ⟨C.capacity, C.size, C.nodup, C.valid, C.marked, C.intact, C.placed, C.full, C.pending,
    C.gray_nodup, ?_, ?_, C.white_done, by simp, C.word, C.forwarded⟩
  · intro x hx
    obtain ⟨hb, hd, _⟩ := C.gray_done x hx
    exact ⟨hb, hd, by simp⟩
  · intro x hx hg _
    by_cases hxr : x = r
    · exact hxr ▸ h
    · exact C.black_done x hx hg fun he => hxr (Option.some.inj he)

/-- Draining ends with every copied block black. What is copied on the way can be reached. -/
theorem Colored.drain (L : s.Layout stop D) (hstop : stop ≤ w.maxOffset) (hcap : stop ≤ s.capacity)
    {roots : List (Word w)} (C : Colored s stop D e blocks gray none done)
    (hreach : ∀ r ∈ blocks, s.Reachable roots r) :
    ∃ e' more done', e.drain = .ok e' ∧ Colored s stop D e' (blocks ++ more) [] none done' ∧
      (∀ r ∈ blocks ++ more, s.Reachable roots r) ∧
      s.Explores ⟨blocks, gray⟩ (blocks ++ more) := by
  -- the measure that `drain` itself goes down by
  induction hm : e.unmarked + e.pending.length using Nat.strong_induction_on
    generalizing e blocks gray done with
  | _ m ih =>
    cases gray with
    | nil =>
      refine ⟨e, [], done, drain_nil (by simpa using C.pending), by simpa using C,
        by simpa using hreach, ?_⟩
      rw [List.append_nil]
      exact .finished blocks
    | cons r rest =>
      have hr : r ∈ blocks := (C.gray_done r List.mem_cons_self).1
      have hd0 : done r = 0 := (C.gray_done r List.mem_cons_self).2.1
      have hpos := s.extent_pos r
      have hfit := C.home_le L hstop hr
      have htotal := L.total_le C.nodup C.valid
      have hfull := C.full
      have hshape : e.targetSpace.shape (r.move e.home) = .ok (s.shapeAt r) := by
        rw [Space.shape_eq (by
          change e.home r.offset < e.source.capacity
          rw [C.capacity]
          omega)]
        congr 1
        apply Space.shapeAt_congr (Ref.move_pair _ _)
        intro _
        have h := C.word r hr 0 hpos
        rw [hd0, if_neg (by omega)] at h
        exact h
      obtain ⟨e₁, more, gray₁, done₁, hs, C₁, hd₁, hmore, hvisit⟩ :=
        C.next.scan L hstop hcap (n := (s.shapeAt r).traced) (by omega)
      have hpend : e.pending = r.move e.home :: rest.map (Ref.move e.home) := C.pending
      have hscan : { e with pending := rest.map (Ref.move e.home) }.scan
          ((r.move e.home).offset + (s.shapeAt r).lead) (s.shapeAt r).traced = .ok e₁ := by
        rw [hd0] at hs
        exact hs
      have hbudget := scan_budget hscan
      have hreach₁ : ∀ x ∈ blocks ++ more, s.Reachable roots x := by
        intro x hx
        rcases List.mem_append.mp hx with hx | hx
        · exact hreach x hx
        · obtain ⟨v, hv, hvx⟩ := hmore x hx
          exact .child (hreach r hr) hv hvx
      obtain ⟨e', more', done', hdrain, C', hreach', horder⟩ :=
        ih (e₁.unmarked + e₁.pending.length) (by
          rw [← hm, hpend, List.length_cons]
          simp only [unmarked] at hbudget ⊢
          omega) (C₁.finish hd₁) hreach₁ rfl
      refine ⟨e', more ++ more', done', ?_, by rw [← List.append_assoc]; exact C',
        by rw [← List.append_assoc]; exact hreach', ?_⟩
      · rw [drain_cons hpend hshape hscan, hdrain]
      · rw [hd0, List.drop_zero] at hvisit
        rw [← List.append_assoc]
        exact .opened (hvisit ▸ horder)

/-- Forwarding a list moves every word in it to its final home. -/
theorem Colored.forwardList (L : s.Layout stop D) (hstop : stop ≤ w.maxOffset)
    (hcap : stop ≤ s.capacity) {vs : List (Word w)}
    (C : Colored s stop D e blocks gray scanning done) (hvs : ∀ v ∈ vs, v.Into D)
    (acc : List (Word w)) :
    ∃ e' more gray',
      e.forwardList acc vs = .ok (acc.reverse ++ vs.map (Word.move e'.home), e') ∧
      Colored s stop D e' (blocks ++ more) gray' scanning done ∧
      (∀ v ∈ vs, v.Into {c | c ∈ blocks ++ more}) ∧ (∀ r ∈ more, ∃ v ∈ vs, v.ref? = some r) ∧
      Frontier.visitAll ⟨blocks, gray⟩ vs = ⟨blocks ++ more, gray'⟩ := by
  induction vs generalizing e blocks gray acc with
  | nil =>
    exact ⟨e, [], gray, by simp [Evacuation.forwardList], by simpa using C, by simp, by simp,
      by simp⟩
  | cons v vs ih =>
    obtain ⟨e₁, more, hf, C₁, hinto, hmore, hvisit⟩ :=
      C.forward L hstop hcap (hvs v List.mem_cons_self)
    obtain ⟨e', more', gray', hl, C', hinto', hmore', hrest⟩ :=
      ih C₁ (fun u hu => hvs u (List.mem_cons_of_mem _ hu)) (v.move e₁.home :: acc)
    have hstay : v.move e'.home = v.move e₁.home :=
      Word.move_congr fun r hr => C₁.home_stable L hstop C' (hinto r hr)
    refine ⟨e', more ++ more', gray', ?_, by rw [← List.append_assoc]; exact C', ?_, ?_, ?_⟩
    · simp only [Evacuation.forwardList, hf, hl, List.reverse_cons, List.map_cons, hstay,
        List.append_assoc, List.singleton_append]
    · intro u hu
      rcases List.mem_cons.mp hu with rfl | hu
      · exact hinto.mono fun c hc => by
          rw [← List.append_assoc]
          exact List.mem_append_left _ hc
      · rw [← List.append_assoc]
        exact hinto' u hu
    · intro x hx
      rcases List.mem_append.mp hx with hx | hx
      · exact ⟨v, List.mem_cons_self, hmore x hx⟩
      · obtain ⟨u, hu, hux⟩ := hmore' x hx
        exact ⟨u, List.mem_cons_of_mem _ hu, hux⟩
    · rw [Frontier.visitAll_cons, hvisit, hrest, List.append_assoc]

theorem colored_start (s : Space w) (stop : Nat) (D : Set Ref) :
    Colored s stop D (start s stop) [] [] none fun _ => 0 := by
  refine ⟨rfl, ?_, List.nodup_nil, by simp, ?_, fun _ _ => rfl, by simp, rfl, rfl, List.nodup_nil,
    by simp, by simp, fun _ _ => rfl, by simp, by simp, by simp⟩
  · simp only [start, Array.size_replicate]
    omega
  · intro i
    simp only [start, Array.getElem?_replicate]
    split <;> simp

end

/-- A finished evacuation of `s` from `roots`: the reachable blocks lie in the target in the order
of their discovery, each with its leading words as they were and its traced words moved. -/
structure Evacuated (s : Space w) (roots : List (Word w)) (e : Evacuation w) (blocks : List Ref) :
    Prop where
  nodup : blocks.Nodup
  order : s.Discovers roots blocks
  mem_iff : ∀ r, r ∈ blocks ↔ s.Reachable roots r
  size : e.target.size = s.total blocks
  home : ∀ front r back, blocks = front ++ r :: back → e.home r.offset = s.total front
  word : ∀ r ∈ blocks, ∀ i < s.extent r, e.targetSpace.cell (e.home r.offset + i) =
    if (s.shapeAt r).lead ≤ i then (s.cell (r.offset + i)).move e.home else s.cell (r.offset + i)

/-- On a layout that the roots stay within, an evacuation ends well. -/
theorem run_evacuates {s : Space w} {stop : Nat} {D : Set Ref} (L : s.Layout stop D)
    (hstop : stop ≤ w.maxOffset) (hcap : stop ≤ s.capacity) {roots : List (Word w)}
    (hroots : ∀ v ∈ roots, v.Into D) :
    ∃ e blocks, run s stop roots = .ok (roots.map (Word.move e.home), e) ∧
      Evacuated s roots e blocks := by
  obtain ⟨e₁, more, gray, hf, C₁, hinto, hmore, hvisit⟩ :=
    (colored_start s stop D).forwardList L hstop hcap hroots []
  rw [List.nil_append] at C₁ hinto hvisit
  have hreach : ∀ r ∈ more, s.Reachable roots r := by
    intro r hr
    obtain ⟨v, hv, hvr⟩ := hmore r hr
    exact .root hv hvr
  obtain ⟨e, more', done, hd, C, hreach', horder⟩ := C₁.drain L hstop hcap hreach
  have hblack : ∀ r ∈ more ++ more', done r = (s.shapeAt r).traced :=
    fun r hr => C.black_done r hr (by simp) (by simp)
  have hstay : roots.map (Word.move e.home) = roots.map (Word.move e₁.home) := by
    apply List.map_congr_left
    intro v hv
    exact Word.move_congr fun r hr => C₁.home_stable L hstop C (hinto v hv r hr)
  have hfound : s.Discovers roots (more ++ more') := by
    rw [Space.Discovers, hvisit]
    exact horder
  refine ⟨e, more ++ more', ?_, C.nodup, hfound, ?_, C.full, fun _ _ _ h => C.home_eq L hstop h, ?_⟩
  · simp only [run, hf, bind, Except.bind, hd, pure, Except.pure, hstay]
    simp
  · intro r
    refine ⟨hreach' r, fun h => ?_⟩
    apply h.subset (D := {c | c ∈ more ++ more'})
    · intro v hv
      exact (hinto v hv).mono fun c hc => List.mem_append_left _ hc
    · intro x hx v hv
      obtain ⟨i, hi, rfl⟩ := Space.mem_traced.mp hv
      exact C.forwarded x hx i (by rw [hblack x hx]; exact hi)
  · intro r hr i hi
    rw [C.word r hr i hi, hblack r hr]
    have hext := s.extent_eq r
    by_cases hlead : (s.shapeAt r).lead ≤ i
    · rw [if_pos ⟨hlead, by omega⟩, if_pos hlead]
    · rw [if_neg (by omega), if_neg hlead]

end Trampoline.Evacuation
