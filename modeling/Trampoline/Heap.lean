import Trampoline.Heap.Equality
import Trampoline.Heap.Evacuation

/-!
A bump-allocated heap with a copying collector.

Allocation follows a rule of checkpoints. `reserve` makes room for a number of words, and may
collect to do so; after it, up to that many words can be taken and written, and no collection can
happen. A reference is an offset, so it keeps its meaning only up to the next `reserve` that
collects, unless it was one of the roots.

A trap in the middle of an allocation leaves what has been taken and written so far.
-/

namespace Trampoline

/-- Counters kept over the life of a heap. They are plain numbers: what is said of a heap is said as
long as none of them comes to `2 ^ 64`. -/
structure HeapStats where
  collections : Nat := 0
  grows : Nat := 0
  wordsAllocated : Nat := 0
  wordsCopied : Nat := 0
  lastLiveWords : Nat := 0
  peakCapacity : Nat := 0
deriving DecidableEq, Repr

/-- A request that did not fit even after a collection and growth to the maximum. -/
structure Shortage where
  requested : Nat
  live : Nat
  max : Nat
deriving DecidableEq, Repr

def Shortage.message (s : Shortage) : String :=
  "out of memory: " ++ toString s.requested ++ " words requested with " ++ toString s.live ++
    " live (heap limit " ++ toString s.max ++ " words)"

/-- What a heap reports of its work. It reports its making before there is room for it. -/
inductive HeapEvent where
  | made (initial max : Nat)
  | grown (before after : Nat)
  | collected (number before live capacity : Nat)
  | exhausted (requested live : Nat)
deriving DecidableEq, Repr

/-- A heap: the words below `hp` are taken, those up to `limit` are reserved. -/
structure Heap (w : Width) where
  space : Space w
  hp : Nat
  limit : Nat
  settings : HeapSettings
  stats : HeapStats

/-- A heap after a checkpoint, with the roots as they are now. -/
structure Checkpoint (w : Width) where
  heap : Heap w
  roots : List (Word w)
  events : List HeapEvent
  /-- Set when the request could not be granted. -/
  shortage : Option Shortage

namespace Heap

variable {w : Width}

def create (settings : HeapSettings) : Except (Trap w) (Heap w) :=
  match settings.validate w with
  | .error e => .error (.heapSettings e)
  | .ok () => do
    let capacity ← Size.ofWords settings.initialWords
    return {
      space := .empty capacity
      hp := 0
      limit := 0
      settings
      stats := { peakCapacity := capacity } }

def capacity (h : Heap w) : Nat := h.space.capacity

def free (h : Heap w) : Nat := h.capacity - h.hp

/-! ### Collection -/

/-- Is so much live data more than the share of the capacity that calls for growth? -/
def crowded (h : Heap w) (live : Nat) : Bool :=
  Float.ofNat live > Float.ofNat h.capacity * h.settings.growThreshold

/-- The capacity after a collection that left `live` words and has to serve `requested` more:
doubled, or as much as is needed, when the heap is crowded or the request does not fit. -/
def capacityFor (h : Heap w) (live requested : Nat) : Nat :=
  if h.crowded live || h.capacity < live + requested then
    max h.capacity (min (max (2 * h.capacity) (live + requested)) h.settings.maxWords)
  else h.capacity

/-- Collect from `roots`, and grow if that is called for. -/
def collectFor (h : Heap w) (requested : Nat) (roots : List (Word w)) :
    Except (Trap w) (Checkpoint w) := do
  let (roots, e) ← Evacuation.run h.space h.hp roots
  let live := e.target.size
  let capacity := h.capacityFor live requested
  let grew := h.capacity < capacity
  let capacity ← if grew then Size.ofWords capacity else pure capacity
  let stats : HeapStats :=
    { collections := h.stats.collections + 1
      grows := if grew then h.stats.grows + 1 else h.stats.grows
      wordsAllocated := h.stats.wordsAllocated
      wordsCopied := h.stats.wordsCopied + live
      lastLiveWords := live
      peakCapacity := if grew then max h.stats.peakCapacity capacity else h.stats.peakCapacity }
  return {
    heap :=
      { space := ⟨e.target, capacity⟩, hp := live, limit := live, settings := h.settings, stats }
    roots
    events := (if grew then [.grown h.capacity capacity] else []) ++
      [.collected stats.collections h.hp live capacity]
    shortage := none }

/-- The heap and the roots as a collection leaves them that traps. If not everything could be
evacuated, the space is lost, and with it the words that the heap still takes for its own. Otherwise
it is in order, but could not be made as large as it should be. -/
def wreck (h : Heap w) (roots : List (Word w)) : Heap w × List (Word w) :=
  match Evacuation.run h.space h.hp roots with
  | .error _ =>
    ({ h with space := .empty 0 }, (Evacuation.start h.space h.hp).forwardUntil roots)
  | .ok (roots, e) =>
    let live := e.target.size
    let stats : HeapStats :=
      { h.stats with
        collections := h.stats.collections + 1
        wordsCopied := h.stats.wordsCopied + live
        lastLiveWords := live }
    ({ h with space := ⟨e.target, h.capacity⟩, hp := live, limit := live, stats }, roots)

def collect (h : Heap w) (roots : List (Word w)) : Except (Trap w) (Checkpoint w) :=
  h.collectFor 0 roots

/-! ### Reservation and allocation -/

/-- Reserve words that are known to be free. -/
def grant (h : Heap w) (words : Nat) : Heap w := { h with limit := h.hp + words }

def reclaim (h : Heap w) (words : Nat) (roots : List (Word w)) :
    Except (Trap w) (Checkpoint w) := do
  let c ← h.collectFor words roots
  if c.heap.free < words then
    return { c with
      events := c.events ++ [.exhausted words c.heap.hp]
      shortage := some ⟨words, c.heap.hp, c.heap.settings.maxWords⟩ }
  else return { c with heap := c.heap.grant words }

/-- Make room for `words` words, collecting from `roots` if they are not free. A heap that has lost
its space cannot tell what is free. -/
def reserve (h : Heap w) (words : Nat) (roots : List (Word w)) :
    Except (Trap w) (Checkpoint w) :=
  if h.capacity < h.hp then .error .bounds
  else if words ≤ h.free then .ok ⟨h.grant words, roots, [], none⟩
  else h.reclaim words roots

/-- The offset at which `words` words of the reservation begin. -/
def room (h : Heap w) (words : Nat) : Except (Trap w) Nat := do
  let top ← Size.add h.hp words
  if h.limit < top then throw (.overReservation words h.hp h.limit)
  return h.hp

/-! ### Access -/

def word (h : Heap w) (offset : Nat) : Except (Trap w) (Word w) := h.space.read offset

def load (h : Heap w) (r : Ref) (index : Nat) : Except (Trap w) (Word w) :=
  h.space.read (r.offset + index)

def header (h : Heap w) (r : Ref) : Except (Trap w) (Header w) := do
  if r.pair then throw (.headerOfPair r)
  let v ← h.space.read r.offset
  match v.header? with
  | some header => return header
  | none => throw (.corruptHeader r)

def block (h : Heap w) (r : Ref) : Except (Trap w) (List (Word w)) := h.space.block r

/-- Structural equality; `none` when the comparison would never end. -/
def equal (h : Heap w) (a b : Word w) : Except (Trap w) (Option Bool) := h.space.equal h.hp a b

end Heap

/-- Work on a heap. Also a trap leaves a heap behind, as the work had made it by then. -/
abbrev Alloc (w : Width) := EStateM (Trap w) (Heap w)

instance {w : Width} : MonadLift (Except (Trap w)) (Alloc w) where
  monadLift r :=
    match r with
    | .ok a => pure a
    | .error t => throw t

namespace Alloc

variable {w : Width}

/-- Take words of the reservation; answer where they begin. -/
def take (words : Nat) : Alloc w Nat := do
  let offset ← (← get).room words
  modify fun h =>
    { h with
      hp := h.hp + words
      stats := { h.stats with wordsAllocated := h.stats.wordsAllocated + words } }
  return offset

def within (offset words : Nat) : Alloc w Unit := do
  if (← get).capacity < offset + words then throw .bounds

/-- Write words from an offset on; the caller stays within the capacity. -/
def fill (offset : Nat) (contents : List (Word w)) : Alloc w Unit :=
  modify fun h => { h with space := h.space.write offset contents }

def bump (words : Nat) : Alloc w Nat := do
  let offset ← take words
  within offset words
  return offset

/-- Take words and copy the first words of a block to the front of them. -/
def bumpCopy (words : Nat) (source : Ref) (count : Nat) : Alloc w Nat := do
  if words < count then throw .copyTooLong
  else
    let offset ← take words
    let copied ← (← get).space.slice source.offset count
    within offset count
    fill offset copied
    within offset words
    return offset

def store (contents : List (Word w)) : Alloc w Nat := do
  let offset ← bump contents.length
  fill offset contents
  return offset

end Alloc

def HeapStats.describe (s : HeapStats) : String :=
  "GcStats \x7b collections: " ++ toString s.collections ++ ", grows: " ++ toString s.grows ++
    ", words_allocated: " ++ toString s.wordsAllocated ++
    ", words_copied: " ++ toString s.wordsCopied ++
    ", last_live_words: " ++ toString s.lastLiveWords ++
    ", peak_capacity: " ++ toString s.peakCapacity ++ " \x7d"

def Heap.describe {w : Width} (h : Heap w) : String :=
  "Heap \x7b hp: " ++ toString h.hp ++ ", capacity: " ++ toString h.capacity ++
    ", stats: " ++ h.stats.describe ++ " \x7d"

end Trampoline
