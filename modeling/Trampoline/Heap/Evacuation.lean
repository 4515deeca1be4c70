import Trampoline.Space

/-!
One evacuation: the blocks that can be reached from the roots are copied from a source space into
a target, and every reference to them is moved along.

A block that has been copied is marked at its old offset, and its new offset is written over its
first word there. The traced words of a copied block still point into the source until the block
is taken from the pending list and scanned.

Every copy marks an offset that was not marked before and adds one block to the pending list, and
every scan takes one off. So `unmarked + pending.length` is the same after a forwarding, and less
after a scan: an evacuation ends.
-/

namespace Trampoline

structure Evacuation (w : Width) where
  source : Space w
  /-- The words copied so far. -/
  target : Array (Word w)
  /-- Which source offsets have been copied from. -/
  marked : Array Bool
  /-- Copied blocks whose traced words are still to be forwarded, the last one first. -/
  pending : List Ref

namespace Evacuation

variable {w : Width}

/-- An evacuation of the first `used` words of a space. Offsets are marked in groups of 64. -/
def start (source : Space w) (used : Nat) : Evacuation w :=
  { source
    target := #[]
    marked := Array.replicate (64 * ((used + 63) / 64)) false
    pending := [] }

def unmarked (e : Evacuation w) : Nat := e.marked.count false

/-- Copy the block of an unmarked reference to the end of the target. -/
def copy (e : Evacuation w) (r : Ref) (h : r.offset < e.marked.size) :
    Except (Trap w) (Word w × Evacuation w) := do
  let shape ← e.source.shape r
  let block ← e.source.slice r.offset shape.words
  let offset := e.target.size
  if e.source.capacity < offset + shape.words then throw .bounds
  let moved ← r.relocated offset
  return (moved.word,
    { source := e.source.put r.offset (Word.ofNat offset)
      target := e.target ++ block
      marked := e.marked.set r.offset true
      pending := moved :: e.pending })

/-- The word that replaces `v`: its block is copied unless that has been done. -/
def forward (e : Evacuation w) (v : Word w) : Except (Trap w) (Word w × Evacuation w) :=
  match v.ref? with
  | none => .ok (v, e)
  | some r =>
    if h : r.offset < e.marked.size then
      if e.marked[r.offset] then do
        let offset ← e.source.read r.offset
        let moved ← r.relocated offset.toNat
        return (moved.word, e)
      else e.copy r h
    else .error .bounds

def forwardList (e : Evacuation w) (done : List (Word w)) :
    List (Word w) → Except (Trap w) (List (Word w) × Evacuation w)
  | [] => .ok (done.reverse, e)
  | v :: vs =>
    match e.forward v with
    | .error t => .error t
    | .ok (v', e') => e'.forwardList (v' :: done) vs

/-- The words of a list once they have been forwarded from left to right, up to the first one that
traps. -/
def forwardUntil (e : Evacuation w) : List (Word w) → List (Word w)
  | [] => []
  | v :: vs =>
    match e.forward v with
    | .error _ => v :: vs
    | .ok (v', e') => v' :: e'.forwardUntil vs

/-- Forward `n` words of the target in place, from index `i` on. -/
def scan (e : Evacuation w) (i : Nat) : Nat → Except (Trap w) (Evacuation w)
  | 0 => .ok e
  | n + 1 =>
    if h : i < e.target.size then
      match e.forward e.target[i] with
      | .error t => .error t
      | .ok (v, e') => { e' with target := e'.target.setIfInBounds i v }.scan (i + 1) n
    else .error .bounds

def targetSpace (e : Evacuation w) : Space w := ⟨e.target, e.source.capacity⟩

/-- A copy marks one offset and makes one block pending. -/
theorem copy_budget {e : Evacuation w} {r : Ref} {h : r.offset < e.marked.size}
    (hm : e.marked[r.offset] = false) {v : Word w} {e' : Evacuation w}
    (hc : e.copy r h = .ok (v, e')) :
    e'.unmarked + e'.pending.length = e.unmarked + e.pending.length := by
  unfold copy at hc
  simp only [bind, Except.bind] at hc
  split at hc
  · cases hc
  split at hc
  · cases hc
  split at hc
  · cases hc
  simp only [pure, Except.pure] at hc
  split at hc
  · cases hc
  cases hc
  have hpos : 0 < e.marked.count false := by
    rw [Array.count_pos_iff, ← hm]
    exact Array.getElem_mem h
  simp only [unmarked, Array.count_set, hm, List.length_cons]
  simp
  omega

/-- Forwarding a word keeps the budget that draining the pending blocks is measured by. -/
theorem forward_budget {e : Evacuation w} {v v' : Word w} {e' : Evacuation w}
    (hf : e.forward v = .ok (v', e')) :
    e'.unmarked + e'.pending.length = e.unmarked + e.pending.length := by
  unfold forward at hf
  split at hf
  · cases hf; rfl
  · split at hf
    · split at hf
      · simp only [bind, Except.bind] at hf
        split at hf
        · cases hf
        split at hf
        · cases hf
        cases hf; rfl
      · next hm => exact copy_budget (by simpa using hm) hf
    · cases hf

theorem scan_budget {e : Evacuation w} {i n : Nat} {e' : Evacuation w}
    (hs : e.scan i n = .ok e') :
    e'.unmarked + e'.pending.length = e.unmarked + e.pending.length := by
  simp only [unmarked]
  induction n generalizing e i with
  | zero => simp only [scan] at hs; cases hs; rfl
  | succ n ih =>
    simp only [scan] at hs
    split at hs
    · split at hs
      · cases hs
      · next hf =>
        have h := forward_budget hf
        exact (ih hs).trans h
    · cases hs

/-- Scan pending blocks until none is left. -/
def drain (e : Evacuation w) : Except (Trap w) (Evacuation w) :=
  match _hp : e.pending with
  | [] => .ok e
  | r :: rest =>
    match e.targetSpace.shape r with
    | .error t => .error t
    | .ok shape =>
      match _hs : { e with pending := rest }.scan (r.offset + shape.lead) shape.traced with
      | .error t => .error t
      | .ok e' => e'.drain
termination_by e.unmarked + e.pending.length
decreasing_by
  have h := scan_budget _hs
  simp only [unmarked] at h ⊢
  rw [_hp, List.length_cons]
  omega

/-- Evacuate everything that `roots` reach; answer the moved roots. -/
def run (source : Space w) (used : Nat) (roots : List (Word w)) :
    Except (Trap w) (List (Word w) × Evacuation w) := do
  let (roots, e) ← (start source used).forwardList [] roots
  let e ← e.drain
  return (roots, e)

end Evacuation

end Trampoline
