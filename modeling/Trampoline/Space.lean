import Trampoline.Word.Checked

/-!
A space of words and the blocks in it.

A space has a capacity, and only its front part is stored: what lies above reads as zero. A block
is a run of words in a space: some leading words that are never traced, then its traced words.

* a constructor block is its header, then its fields;
* a closure block is its header, its entry, its arity, then its captured arguments;
* a pair block is its two components.
-/

namespace Trampoline

/-- A space of `capacity` words, of which those beyond `cells` are zero. -/
structure Space (w : Width) where
  cells : Array (Word w)
  capacity : Nat
deriving DecidableEq, Repr

/-- The shape of a block: so many leading words, then so many traced ones. -/
structure Shape where
  lead : Nat
  traced : Nat
deriving DecidableEq, Repr

namespace Shape

def words (s : Shape) : Nat := s.lead + s.traced

def pair : Shape := ⟨0, 2⟩

def constructor (n : Nat) : Shape := ⟨1, n⟩

def closure (n : Nat) : Shape := ⟨3, n⟩

end Shape

/-- The shape of the block that a header stands at the front of. -/
def Header.shape {w : Width} (h : Header w) : Shape :=
  match h.kind with
  | .constructor => .constructor h.fields
  | .closure => .closure h.fields

namespace Space

variable {w : Width}

def empty (capacity : Nat) : Space w := ⟨#[], capacity⟩

def read (s : Space w) (i : Nat) : Except (Trap w) (Word w) :=
  if i < s.capacity then .ok (s.cells.getD i (Word.ofNat 0)) else .error .bounds

def slice (s : Space w) (start len : Nat) : Except (Trap w) (List (Word w)) :=
  if start + len ≤ s.capacity then
    .ok ((List.range' start len).map fun i => s.cells.getD i (Word.ofNat 0))
  else .error .bounds

/-- Write one word; the caller stays within the capacity. -/
def put (s : Space w) (i : Nat) (v : Word w) : Space w :=
  if i < s.cells.size then { s with cells := s.cells.setIfInBounds i v }
  else { s with cells := (s.cells ++ Array.replicate (i - s.cells.size) (Word.ofNat 0)).push v }

/-- Write words from `start` on; the caller stays within the capacity. -/
def write (s : Space w) (start : Nat) : List (Word w) → Space w
  | [] => s
  | v :: vs => (s.put start v).write (start + 1) vs

/-- The shape of the block that a reference points at. Whatever stands there is taken for its
header, unless the block is a pair. -/
def shape (s : Space w) (r : Ref) : Except (Trap w) Shape :=
  if r.pair then .ok .pair
  else do
    let v ← s.read r.offset
    return (Header.mk v).shape

def block (s : Space w) (r : Ref) : Except (Trap w) (List (Word w)) := do
  let shape ← s.shape r
  s.slice r.offset shape.words

def below (s : Space w) (stop : Nat) : List (Word w) :=
  (List.range stop).map fun i => s.cells.getD i (Word.ofNat 0)

end Space

end Trampoline
