import Trampoline.Proofs.Origins
import Trampoline.Proofs.Uids

/-!
Building programs.

A builder is asked for labels, constructors and functions and told the code of labels, in any order,
and it may refuse. The log of the requests and of what was answered to them says all there is to say
about the builder: which labels it has, what they are bound to, and what its uids stand for. A
program is built when the log has a binding for every label in it, and its slots are what the log
says.
-/

namespace Trampoline

variable {w : Width} {κ : Type}

namespace Label

theorem ofNat_index (l : Label) : ofNat l.index = l := by simp [ofNat, index]

theorem index_ofNat {n : Nat} (h : n < 2 ^ 32) : (ofNat n).index = n := by
  simpa [ofNat, index] using h

theorem isReserved_eq_false_iff (l : Label) : l.isReserved = false ↔ 2 ≤ l.index := by
  simp [isReserved, index, UInt32.le_iff_toNat_le]

end Label

namespace Builder

/-! ### Requests -/

inductive Request (κ : Type) where
  | label (name : String)
  | declare (d : Declaration)
  | bind (l : Label) (maxAlloc : Nat) (code : κ)
  | define (f : Function) (code : κ)

inductive Answer where
  | label (l : Label)
  | constructor (c : Constructor)
  | function (f : Function)
  | bound
deriving DecidableEq, Repr

/-- The label that a request asks to bind, the words to reserve for it, and its code. -/
def Request.binding? : Request κ → Option (Label × Nat × κ)
  | bind l maxAlloc code => some (l, maxAlloc, code)
  | define f code => some (f.label, f.maxAlloc, code)
  | label _ => none
  | declare _ => none

def ask : Request κ → Building w κ Answer
  | .label name => .label <$> Builder.label name
  | .declare (.constructor name fields r) => .constructor <$> Builder.constructor name fields r
  | .declare (.function name arity maxAlloc) => .function <$> Builder.function name arity maxAlloc
  | .bind l maxAlloc code => do
    Builder.bind l maxAlloc code
    return .bound
  | .define f code => do
    Builder.define f code
    return .bound

/-- Make a request. A refusal is an answer as well, and the next request goes to the builder that
the refused call has left. -/
def step (q : Request κ) : Building w κ (Except ProgramError Answer) := fun b =>
  match ask q b with
  | .ok a b => .ok (.ok a) b
  | .error (.error e) b => .ok (.error e) b
  | .error fault b => .error fault b

abbrev Log (κ : Type) := List (Request κ × Except ProgramError Answer)

/-- Make requests in turn, until one of them traps. -/
def run : List (Request κ) → Building w κ (Log κ)
  | [] => return []
  | q :: qs => do
    let a ← step q
    let log ← run qs
    return (q, a) :: log

/-! ### Logs -/

def label? : Request κ × Except ProgramError Answer → Option (Label × String)
  | (.label name, .ok (.label l)) => some (l, name)
  | (.declare (.function name _ _), .ok (.function f)) => some (f.label, name)
  | _ => none

def symbol? : Request κ × Except ProgramError Answer → Option (Nat × Symbol)
  | (.declare d, .ok (.constructor c)) => some (c.uid, d.symbol)
  | (.declare d, .ok (.function f)) => some (f.uid, d.symbol)
  | _ => none

def binding? : Request κ × Except ProgramError Answer → Option (Label × Nat × κ)
  | (q, .ok _) => q.binding?
  | (_, .error _) => none

def labels (log : Log κ) : List (Label × String) := log.filterMap label?

def symbols (log : Log κ) : List (Nat × Symbol) := log.filterMap symbol?

def bindings (log : Log κ) : List (Label × Nat × κ) := log.filterMap binding?

def bound (log : Log κ) : List Label := (bindings log).map Prod.fst

def reservedLabels : List (Label × String) :=
  [(.programEnd, "program_end"), (.applyPending, "apply_pending")]

variable {b b' : Builder w κ} {q : Request κ} {qs : List (Request κ)}
  {a : Except ProgramError Answer} {log log' : Log κ}

/-! ### Steps -/

/-- What a request does to a builder if it does not trap. -/
inductive Steps (b : Builder w κ) :
    Request κ → Except ProgramError Answer → Builder w κ → Prop where
  | refused {q : Request κ} {e : ProgramError} : Steps b q (.error e) b
  | label (name : String) :
      Steps b (.label name) (.ok (.label (.ofNat b.slots.size)))
        { b with slots := b.slots.push { name } }
  | constructor (name : String) (fields : Nat) (r : Representation) :
      Steps b (.declare (.constructor name fields r)) (.ok (.constructor ⟨b.nextUid, fields, r⟩))
        (b.withConstructor name)
  | function (name : String) (arity maxAlloc : Nat) :
      Steps b (.declare (.function name arity maxAlloc))
        (.ok (.function ⟨b.nextUid, .ofNat b.slots.size, arity, maxAlloc⟩)) (b.withFunction name)
  | bound {q : Request κ} {l : Label} {maxAlloc : Nat} {code : κ} {slot : Slot κ} :
      q.binding? = some (l, maxAlloc, code) → l.isReserved = false →
      b.slots[l.index]? = some slot → slot.code = none →
      Steps b q (.ok .bound)
        { b with slots := b.slots.setIfInBounds l.index ⟨slot.name, maxAlloc, some code⟩ }

theorem Steps.bind {l : Label} {maxAlloc : Nat} {code : κ} {u : Unit}
    (hq : q.binding? = some (l, maxAlloc, code)) (h : Builder.bind l maxAlloc code b = .ok u b') :
    b.Steps q (.ok .bound) b' := by
  obtain ⟨slot, hslot, hl, hcode, rfl⟩ := bind_eq_ok h
  exact .bound hq hl hslot hcode

/-- What a call that returns has done to the builder. -/
theorem steps_of_ask {a : Answer} (h : ask q b = .ok a b') : b.Steps q (.ok a) b' := by
  cases q with
  | label name =>
    cases h
    exact .label name
  | declare d =>
    cases d with
    | constructor name fields r =>
      obtain ⟨c, d, hc, h⟩ := of_bind_eq_ok h
      obtain ⟨rfl, rfl⟩ := constructor_eq_ok hc
      cases h
      exact .constructor name fields r
    | function name arity maxAlloc =>
      obtain ⟨f, d, hf, h⟩ := of_bind_eq_ok h
      obtain ⟨_, rfl, rfl⟩ := function_eq_ok hf
      cases h
      exact .function name arity maxAlloc
  | bind l maxAlloc code =>
    obtain ⟨_, d, hd, h⟩ := of_bind_eq_ok h
    cases h
    exact .bind rfl hd
  | define f code =>
    obtain ⟨_, d, hd, h⟩ := of_bind_eq_ok h
    cases h
    exact .bind rfl hd

/-- A call that fails leaves the builder as it was. -/
theorem ask_eq_error {fault : Fault w ProgramError} (h : ask q b = .error fault b') : b' = b := by
  cases q with
  | label name => cases h
  | declare d =>
    cases d with
    | constructor name fields r =>
      rcases of_bind_eq_error h with h | ⟨_, _, _, h⟩
      · exact constructor_eq_error h
      · cases h
    | function name arity maxAlloc =>
      rcases of_bind_eq_error h with h | ⟨_, _, _, h⟩
      · exact function_eq_error h
      · cases h
  | bind l maxAlloc code =>
    rcases of_bind_eq_error h with h | ⟨_, _, _, h⟩
    · exact bind_eq_error h
    · cases h
  | define f code =>
    rcases of_bind_eq_error h with h | ⟨_, _, _, h⟩
    · exact bind_eq_error h
    · cases h

theorem step_eq_error {e : ProgramError} (h : step q b = .ok (.error e) b') :
    ask q b = .error (.error e) b' := by
  unfold step at h
  split at h
  · cases h
  · next hask =>
    cases h
    exact hask
  · cases h

/-- What a request has done to the builder, whether it was granted or refused. -/
theorem steps_of_step (h : step q b = .ok a b') : b.Steps q a b' := by
  cases a with
  | error e =>
    obtain rfl := ask_eq_error (step_eq_error h)
    exact .refused
  | ok a =>
    unfold step at h
    split at h
    · next hask =>
      cases h
      exact steps_of_ask hask
    · cases h
    · cases h

/-- A binding is refused when the label is reserved or has code, and only then. -/
theorem step_of_binding {l : Label} {maxAlloc : Nat} {code : κ}
    (hq : q.binding? = some (l, maxAlloc, code)) (h : step q b = .ok a b') :
    ∃ slot, b.slots[l.index]? = some slot ∧
      a = if l.isReserved || slot.code.isSome then .error (.duplicateBinding slot.name)
        else .ok .bound := by
  have hask : ask q b = (Builder.bind l maxAlloc code >>= fun _ => pure .bound : Building w κ Answer) b := by
    cases q with
    | label name => cases hq
    | declare d => cases hq
    | bind l maxAlloc code =>
      cases hq
      rfl
    | define f code =>
      cases hq
      rfl
  have hbind := bind_apply b l maxAlloc code
  unfold step at h
  rw [hask] at h
  cases hslot : b.slots[l.index]? with
  | none =>
    rw [hslot] at hbind
    rw [bind_of_error hbind] at h
    cases h
  | some slot =>
    refine ⟨slot, rfl, ?_⟩
    rw [hslot] at hbind
    dsimp only at hbind
    split
    · next htaken =>
      rw [if_pos htaken] at hbind
      rw [bind_of_error hbind] at h
      cases h
      rfl
    · next hfree =>
      rw [if_neg hfree] at hbind
      rw [bind_of_ok hbind] at h
      cases h
      rfl

/-! ### What the log says of the builder -/

/-- The labels of the slots, in order, are the reserved ones and those that were given out. -/
def Labelled (slots : Array (Slot κ)) (given : List (Label × String)) : Prop :=
  reservedLabels ++ given = slots.toList.mapIdx fun i slot => (Label.ofNat i, slot.name)

/-- The slots that have code are those of the bindings, of which no two are of one label. -/
structure Coded (slots : Array (Slot κ)) (made : List (Label × Nat × κ)) : Prop where
  mem_iff : ∀ l maxAlloc code, (l, maxAlloc, code) ∈ made ↔
    ∃ name, slots[l.index]? = some ⟨name, maxAlloc, some code⟩
  once : (made.map Prod.fst).Nodup

/-- The builder is the one that the log tells of. -/
structure Records (b : Builder w κ) (log : Log κ) : Prop where
  labelled : Labelled b.slots (labels log)
  coded : Coded b.slots (bindings log)
  named : Named b (symbols log)

section

variable {slots : Array (Slot κ)} {slot : Slot κ} {name : String} {names : Names} {l : Label}
  {given : List (Label × String)} {made : List (Label × Nat × κ)} {uids : List (Nat × Symbol)}
  {maxAlloc : Nat} {code : κ}

theorem Labelled.push (L : Labelled slots given) (name : String) :
    Labelled (slots.push { name }) (given ++ [(.ofNat slots.size, name)]) := by
  unfold Labelled at *
  rw [← List.append_assoc, L, Array.toList_push, List.mapIdx_concat, Array.length_toList]

/-- Binding a label changes no label. -/
theorem Labelled.set (L : Labelled slots given) {i : Nat} (hslot : slots[i]? = some slot)
    (maxAlloc : Nat) (code : Option κ) :
    Labelled (slots.setIfInBounds i ⟨slot.name, maxAlloc, code⟩) given := by
  unfold Labelled at *
  rw [L]
  apply List.ext_getElem?
  intro j
  rw [List.getElem?_mapIdx, List.getElem?_mapIdx, Array.getElem?_toList, Array.getElem?_toList,
    Array.getElem?_setIfInBounds]
  split
  · next hij =>
    subst hij
    have hi := (Array.getElem?_eq_some_iff.mp hslot).1
    rw [if_pos hi, hslot]
    rfl
  · rfl

/-- A new slot has no code. -/
theorem Coded.push (C : Coded slots made) (name : String) : Coded (slots.push { name }) made where
  mem_iff := by
    intro l maxAlloc code
    rw [C.mem_iff, Array.getElem?_push]
    split
    · next hl => simp [hl]
    · rfl
  once := C.once

/-- Binding a label that has no code adds a binding of that label. -/
theorem Coded.set (C : Coded slots made) (hslot : slots[l.index]? = some slot)
    (hcode : slot.code = none) (maxAlloc : Nat) (code : κ) :
    Coded (slots.setIfInBounds l.index ⟨slot.name, maxAlloc, some code⟩)
      (made ++ [(l, maxAlloc, code)]) := by
  have hfresh : ∀ n c, (l, n, c) ∉ made := by
    intro n c hmem
    obtain ⟨name, hname⟩ := (C.mem_iff l n c).mp hmem
    rw [hslot] at hname
    cases hname
    cases hcode
  have hi := (Array.getElem?_eq_some_iff.mp hslot).1
  constructor
  · intro k n c
    rw [List.mem_append, List.mem_singleton, Array.getElem?_setIfInBounds]
    by_cases hkl : l.index = k.index
    · have hkl' : k = l := by rw [← k.ofNat_index, ← hkl, l.ofNat_index]
      subst hkl'
      simp [hfresh, hi, eq_comm]
    · have hkl' : k ≠ l := fun h => hkl (by rw [h])
      simp [hkl, hkl', C.mem_iff]
  · rw [List.map_append, List.nodup_append]
    refine ⟨C.once, by simp, ?_⟩
    intro k hk k' hk' heq
    obtain ⟨⟨_, n, c⟩, hmem, rfl⟩ := List.mem_map.mp hk
    rw [List.map_singleton, List.mem_singleton] at hk'
    subst hk' heq
    exact hfresh n c hmem

end

theorem records_empty : (Builder.empty : Builder w κ).Records [] where
  labelled := rfl
  coded := by
    refine ⟨fun l maxAlloc code => iff_of_false List.not_mem_nil ?_, List.nodup_nil⟩
    rintro ⟨name, h⟩
    have hmem := List.mem_of_getElem? (Array.getElem?_toList.trans h)
    simp [Builder.empty] at hmem
  named := named_empty

@[simp] theorem label?_error (q : Request κ) (e : ProgramError) : label? (q, .error e) = none := by
  simp [label?]

@[simp] theorem symbol?_error (q : Request κ) (e : ProgramError) :
    symbol? (q, .error e) = none := by
  simp [symbol?]

@[simp] theorem label?_bound (q : Request κ) : label? (q, .ok .bound) = none := by simp [label?]

@[simp] theorem symbol?_bound (q : Request κ) : symbol? (q, .ok .bound) = none := by simp [symbol?]

theorem filterMap_concat {α β : Type} (f : α → Option β) (xs : List α) (x : α) :
    (xs ++ [x]).filterMap f = xs.filterMap f ++ (f x).toList := by
  rw [List.filterMap_append]
  cases hx : f x <;> simp [hx]

theorem Records.concat (L : Labelled b.slots (labels log ++ (label? (q, a)).toList))
    (C : Coded b.slots (bindings log ++ (binding? (q, a)).toList))
    (N : Named b (symbols log ++ (symbol? (q, a)).toList)) : b.Records (log ++ [(q, a)]) where
  labelled := by rwa [labels, filterMap_concat]
  coded := by rwa [bindings, filterMap_concat]
  named := by rwa [symbols, filterMap_concat]

/-- The builder is still the one that the log tells of, when the log has one more entry. -/
theorem Records.step (R : b.Records log) (h : b.Steps q a b') : b'.Records (log ++ [(q, a)]) := by
  have L := R.labelled
  have C := R.coded
  have N := R.named
  cases h with
  | refused => exact .concat (by simpa) (by simpa [binding?]) (by simpa)
  | label name =>
    exact .concat (L.push name) (by simpa [binding?, Request.binding?] using C.push name)
      (by simpa [symbol?] using N.slots _)
  | constructor name fields r =>
    exact .concat (by simpa [label?]) (by simpa [binding?, Request.binding?]) (N.enter _ rfl rfl)
  | function name arity maxAlloc =>
    exact .concat (L.push name)
      (by simpa [binding?, Request.binding?, withFunction] using C.push name) (N.enter _ rfl rfl)
  | bound hq _ hslot hcode =>
    exact .concat (by simpa using L.set hslot _ _)
      (by simpa [binding?, hq] using C.set hslot hcode _ _) (by simpa using N.slots _)

/-! ### Runs -/

theorem run_cons (h : run (q :: qs) b = .ok log b') :
    ∃ a c rest, step q b = .ok a c ∧ run qs c = .ok rest b' ∧ log = (q, a) :: rest := by
  obtain ⟨a, c, hstep, h⟩ := of_bind_eq_ok h
  obtain ⟨rest, d, hrest, h⟩ := of_bind_eq_ok h
  cases h
  exact ⟨a, c, rest, hstep, hrest, rfl⟩

theorem run_of_step {c : Builder w κ} (hstep : step q b = .ok a c)
    (hrest : run qs c = .ok log b') : run (q :: qs) b = .ok ((q, a) :: log) b' :=
  (bind_of_ok hstep).trans (bind_of_ok hrest)

theorem requests_of_run (h : run qs b = .ok log b') : log.map Prod.fst = qs := by
  induction qs generalizing b log with
  | nil =>
    cases h
    rfl
  | cons q qs ih =>
    obtain ⟨a, c, rest, _, hrest, rfl⟩ := run_cons h
    rw [List.map_cons, ih hrest]

/-- A request is answered by the builder that the requests before it have left. -/
theorem run_split {earlier later : Log κ} (h : run qs b = .ok (earlier ++ (q, a) :: later) b') :
    ∃ c d, run (earlier.map Prod.fst) b = .ok earlier c ∧ step q c = .ok a d := by
  have hqs := requests_of_run h
  subst hqs
  induction earlier generalizing b with
  | nil =>
    obtain ⟨_, c, _, hstep, _, heq⟩ := run_cons h
    cases heq
    exact ⟨b, c, rfl, hstep⟩
  | cons entry earlier ih =>
    obtain ⟨q', a'⟩ := entry
    obtain ⟨_, c, _, hstep, hrest, heq⟩ := run_cons h
    cases heq
    obtain ⟨c', d, hrun, hlast⟩ := ih hrest
    exact ⟨c', d, run_of_step hstep hrun, hlast⟩

/-- Requests that are refused may as well not have been made. -/
theorem run_granted (h : run qs b = .ok log b') :
    run ((log.filter (·.2.isOk)).map Prod.fst) b = .ok (log.filter (·.2.isOk)) b' := by
  induction qs generalizing b log with
  | nil =>
    cases h
    rfl
  | cons q qs ih =>
    obtain ⟨a, c, rest, hstep, hrest, rfl⟩ := run_cons h
    cases a with
    | ok a => exact run_of_step hstep (ih hrest)
    | error e =>
      cases steps_of_step hstep
      exact (ih hrest :)

theorem Records.run (R : b.Records log) (h : run qs b = .ok log' b') :
    b'.Records (log ++ log') := by
  induction qs generalizing b log log' with
  | nil =>
    cases h
    rwa [List.append_nil]
  | cons q qs ih =>
    obtain ⟨a, c, rest, hstep, hrest, rfl⟩ := run_cons h
    rw [List.append_cons]
    exact ih (R.step (steps_of_step hstep)) hrest

theorem records_of_run (h : run qs (.empty : Builder w κ) = .ok log b) : b.Records log :=
  records_empty.run h

/-! ### Reading the log -/

namespace Labelled

variable {slots : Array (Slot κ)} {given : List (Label × String)} {l : Label} {name : String}
  {slot : Slot κ}

theorem getElem? (L : Labelled slots given) (i : Nat) :
    given[i]? = slots[i + 2]?.map fun slot => (.ofNat (i + 2), slot.name) := by
  have h := congrArg (·[i + 2]?) L
  simpa [reservedLabels] using h

theorem mem_all (L : Labelled slots given) (hslot : slots[l.index]? = some slot) :
    (l, slot.name) ∈ reservedLabels ++ given := by
  rw [L]
  refine List.mem_of_getElem? (i := l.index) ?_
  simp [hslot, l.ofNat_index]

theorem lt_size (L : Labelled slots given) (hsize : slots.size ≤ 2 ^ 32)
    (h : l ∈ (reservedLabels ++ given).map Prod.fst) : l.index < slots.size := by
  obtain ⟨p, hp, rfl⟩ := List.mem_map.mp h
  rw [L, List.mem_mapIdx] at hp
  obtain ⟨i, hi, rfl⟩ := hp
  rw [Array.length_toList] at hi
  rwa [Label.index_ofNat (by omega)]

/-- The labels given out are those of the slots after the reserved ones. -/
theorem mem_iff (L : Labelled slots given) (hsize : slots.size ≤ 2 ^ 32) :
    (l, name) ∈ given ↔
      2 ≤ l.index ∧ ∃ slot, slots[l.index]? = some slot ∧ slot.name = name := by
  constructor
  · intro h
    obtain ⟨i, hi⟩ := List.mem_iff_getElem?.mp h
    rw [L.getElem?, Option.map_eq_some_iff] at hi
    obtain ⟨slot, hslot, heq⟩ := hi
    cases heq
    have hlt := (Array.getElem?_eq_some_iff.mp hslot).1
    rw [Label.index_ofNat (by omega)]
    exact ⟨Nat.le_add_left 2 i, slot, hslot, rfl⟩
  · rintro ⟨hl, slot, hslot, rfl⟩
    refine List.mem_of_getElem? (i := l.index - 2) ?_
    rw [L.getElem?, Nat.sub_add_cancel hl, hslot, l.ofNat_index]
    rfl

/-- No two slots have one label, as long as labels are not used up. -/
theorem nodup (L : Labelled slots given) (hsize : slots.size ≤ 2 ^ 32) :
    (given.map Prod.fst).Nodup := by
  have hlength : given.length + 2 = slots.size := by
    have h := congrArg List.length L
    rwa [List.length_append, List.length_mapIdx, Array.length_toList, Nat.add_comm] at h
  have hfst : given.map Prod.fst = (List.range' 2 given.length).map Label.ofNat := by
    apply List.ext_getElem?
    intro i
    rw [List.getElem?_map, L.getElem?, List.getElem?_map]
    by_cases hi : i < given.length
    · rw [List.getElem?_range' hi, Array.getElem?_eq_getElem (by omega)]
      simp [Nat.add_comm]
    · rw [Array.getElem?_eq_none (by omega), List.getElem?_eq_none (by simpa using hi)]
      rfl
  rw [hfst]
  refine List.Nodup.map_on ?_ List.nodup_range'
  intro i hi j hj heq
  rw [List.mem_range'_1] at hi hj
  have hindex := congrArg Label.index heq
  rwa [Label.index_ofNat (by omega), Label.index_ofNat (by omega)] at hindex

end Labelled

/-- A label has been bound if its slot has code. -/
theorem Coded.mem_fst_iff {slots : Array (Slot κ)} {made : List (Label × Nat × κ)} {l : Label}
    {slot : Slot κ} (C : Coded slots made) (hslot : slots[l.index]? = some slot) :
    l ∈ made.map Prod.fst ↔ slot.code ≠ none := by
  constructor
  · intro h
    obtain ⟨⟨_, maxAlloc, code⟩, hmem, rfl⟩ := List.mem_map.mp h
    obtain ⟨name, hcoded⟩ := (C.mem_iff _ _ _).mp hmem
    cases hslot.symm.trans hcoded
    exact Option.some_ne_none code
  · intro hcode
    obtain ⟨code, hsome⟩ := Option.ne_none_iff_exists'.mp hcode
    refine List.mem_map.mpr ⟨(l, slot.maxAlloc, code), (C.mem_iff _ _ _).mpr ⟨slot.name, ?_⟩, rfl⟩
    rw [hslot, ← hsome]

/-! ### Building -/

theorem build_of_some {slot : Slot κ} (h : b.unbound? = some slot) (entry : Label)
    (journal : Journal w) :
    b.build entry journal = .error (.error (.unboundLabel slot.name)) := by
  simp only [build, h]

/-- A report that names the entry finds it among the slots. -/
theorem build_of_none (h : b.unbound? = none) {entry : Label} (hentry : entry.index < b.slots.size)
    (journal : Journal w) :
    ∃ journal', b.build entry journal = .ok (⟨b.slots, entry, b.names⟩, journal') := by
  simp only [build, h, Array.getElem?_eq_getElem hentry]
  split
  · exact ⟨_, rfl⟩
  · exact ⟨_, rfl⟩

theorem code_of_unbound?_eq_none (h : b.unbound? = none) {l : Label} {slot : Slot κ}
    (hslot : b.slots[l.index]? = some slot) (hl : l.isReserved = false) : slot.code ≠ none := by
  have hmem : (slot, l.index) ∈ b.slots.toList.zipIdx := by
    rw [List.mk_mem_zipIdx_iff_getElem?, Array.getElem?_toList, hslot]
  rw [unbound?, Option.map_eq_none_iff] at h
  simpa [l.ofNat_index, hl] using List.find?_eq_none.mp h _ hmem

/-- The slot that is found is that of the first label without code. -/
theorem first_of_unbound?_eq_some (hsize : b.slots.size ≤ 2 ^ 32) {slot : Slot κ}
    (h : b.unbound? = some slot) :
    ∃ l : Label, l.isReserved = false ∧ b.slots[l.index]? = some slot ∧ slot.code = none ∧
      ∀ (k : Label) (s : Slot κ), b.slots[k.index]? = some s → s.code = none →
        k.isReserved = false → l.index ≤ k.index := by
  obtain ⟨p, hfind, rfl⟩ := Option.map_eq_some_iff.mp h
  obtain ⟨hfound, i, hi, hget, hbefore⟩ := List.find?_eq_some_iff_getElem.mp hfind
  rw [List.length_zipIdx, Array.length_toList] at hi
  rw [List.getElem_zipIdx, Nat.zero_add] at hget
  subst hget
  have hindex : (Label.ofNat i).index = i := Label.index_ofNat (by omega)
  simp only [Bool.and_eq_true, Bool.not_eq_true', Option.isNone_iff_eq_none] at hfound
  refine ⟨.ofNat i, hfound.1, ?_, hfound.2, ?_⟩
  · rw [hindex, Array.getElem?_eq_getElem hi, Array.getElem_toList]
  · intro k s hs hcode hk
    rw [hindex]
    by_contra hlt
    have hcoded := hbefore k.index (by omega)
    obtain ⟨_, rfl⟩ := Array.getElem?_eq_some_iff.mp hs
    simp [k.ofNat_index, hk, hcode] at hcoded

namespace Records

variable {l : Label} {maxAlloc : Nat} {code : κ}

theorem bound_iff (R : b.Records log) {slot : Slot κ} (hslot : b.slots[l.index]? = some slot) :
    l ∈ bound log ↔ slot.code ≠ none :=
  R.coded.mem_fst_iff hslot

/-- A label is bound unless it is reserved or has been bound before. -/
theorem answers_binding (R : b.Records log) (hq : q.binding? = some (l, maxAlloc, code))
    (h : Builder.step q b = .ok a b') :
    ((l.isReserved = true ∨ l ∈ bound log) ∧
      ∃ name, (l, name) ∈ reservedLabels ++ labels log ∧ a = .error (.duplicateBinding name)) ∨
    (¬ (l.isReserved = true ∨ l ∈ bound log) ∧ a = .ok .bound) := by
  obtain ⟨slot, hslot, rfl⟩ := step_of_binding hq h
  have htaken : (l.isReserved || slot.code.isSome) = true ↔
      l.isReserved = true ∨ l ∈ bound log := by
    rw [R.bound_iff hslot, Bool.or_eq_true, Option.isSome_iff_ne_none]
  by_cases ht : (l.isReserved || slot.code.isSome) = true
  · rw [if_pos ht]
    exact .inl ⟨htaken.mp ht, slot.name, R.labelled.mem_all hslot, rfl⟩
  · rw [if_neg ht]
    exact .inr ⟨mt htaken.mpr ht, rfl⟩

/-- A program has, for each label that was given out, what the label was bound to. -/
theorem slot?_eq (R : b.Records log) (hsize : b.slots.size ≤ 2 ^ 32) {name : String} (entry : Label)
    (hl : (l, name) ∈ labels log) (hbound : l ∈ bound log) :
    ∃ maxAlloc code, (l, maxAlloc, code) ∈ bindings log ∧
      (Program.mk b.slots entry b.names).slot? l = some ⟨name, maxAlloc, some code⟩ := by
  obtain ⟨_, slot, hslot, rfl⟩ := (R.labelled.mem_iff hsize).mp hl
  obtain ⟨⟨_, maxAlloc, code⟩, hmem, rfl⟩ := List.mem_map.mp hbound
  obtain ⟨name, hcoded⟩ := (R.coded.mem_iff _ _ _).mp hmem
  cases hslot.symm.trans hcoded
  exact ⟨maxAlloc, code, hmem, hcoded⟩

theorem all_bound (R : b.Records log) (hsize : b.slots.size ≤ 2 ^ 32) (h : b.unbound? = none) :
    ∀ p ∈ labels log, p.1 ∈ bound log := by
  intro p hp
  obtain ⟨hle, slot, hslot, _⟩ := (R.labelled.mem_iff hsize).mp hp
  rw [R.bound_iff hslot]
  exact code_of_unbound?_eq_none h hslot ((Label.isReserved_eq_false_iff _).mpr hle)

/-- The slot that is reported is the lowest one without code. -/
theorem lowest_unbound (R : b.Records log) (hsize : b.slots.size ≤ 2 ^ 32) {slot : Slot κ}
    (h : b.unbound? = some slot) :
    ∃ l, (l, slot.name) ∈ labels log ∧ l ∉ bound log ∧
      ∀ p ∈ labels log, p.1 ∉ bound log → l.index ≤ p.1.index := by
  obtain ⟨l, hl, hslot, hcode, hfirst⟩ := first_of_unbound?_eq_some hsize h
  rw [Label.isReserved_eq_false_iff] at hl
  refine ⟨l, (R.labelled.mem_iff hsize).mpr ⟨hl, slot, hslot, rfl⟩, ?_, ?_⟩
  · rw [R.bound_iff hslot]
    exact not_not_intro hcode
  · intro p hp hunbound
    obtain ⟨hle, s, hs, _⟩ := (R.labelled.mem_iff hsize).mp hp
    rw [R.bound_iff hs, not_not] at hunbound
    exact hfirst _ _ hs hunbound ((Label.isReserved_eq_false_iff _).mpr hle)

end Records

/-- Whatever is asked of a new builder, in whatever order, as long as nothing traps and labels are
not used up:

* the labels it gives out are different from each other, and none of them is reserved;
* a binding is refused just when the label is reserved or has been bound before;
* a call that is refused leaves the builder as it was before the call, so it leaves no trace in
  what is answered later;
* its names are those of the builtin constructors and of what uids were given out for;
* a program is built when every label has been bound, and then has the binding of each label in its
  slot. Otherwise the lowest label that has not been bound is reported. -/
theorem building_sound {qs : List (Request κ)} {log : Log κ} {b : Builder w κ}
    (hrun : run qs .empty = .ok log b) (hsize : b.slots.size ≤ 2 ^ 32) :
    log.map Prod.fst = qs ∧
    ((labels log).map Prod.fst).Nodup ∧ (∀ p ∈ labels log, p.1.isReserved = false) ∧
    (∀ earlier q a later l maxAlloc code, log = earlier ++ (q, a) :: later →
      q.binding? = some (l, maxAlloc, code) →
      ((l.isReserved = true ∨ l ∈ bound earlier) ∧
        ∃ name, (l, name) ∈ reservedLabels ++ labels earlier ∧
          a = .error (.duplicateBinding name)) ∨
      (¬ (l.isReserved = true ∨ l ∈ bound earlier) ∧ a = .ok .bound)) ∧
    (∀ earlier q e later, log = earlier ++ (q, .error e) :: later →
      ∃ c : Builder w κ, run (earlier.map Prod.fst) .empty = .ok earlier c ∧
        ask q c = .error (.error e) c) ∧
    run ((log.filter (·.2.isOk)).map Prod.fst) (.empty : Builder w κ) =
      .ok (log.filter (·.2.isOk)) b ∧
    (∀ uid name, b.names.constructor? uid = some name ↔
      (uid, name) ∈ [(0, "False"), (1, "True"), (2, "Unit")] ∨
        (uid, .constructor name) ∈ symbols log) ∧
    (∀ uid name, b.names.function? uid = some name ↔ (uid, .function name) ∈ symbols log) ∧
    (bound log).Nodup ∧
    ∀ entry journal, entry ∈ (reservedLabels ++ labels log).map Prod.fst →
      ((∀ p ∈ labels log, p.1 ∈ bound log) ∧
        ∃ p journal', b.build entry journal = .ok (p, journal') ∧
          p.entry = entry ∧ p.names = b.names ∧
          ∀ l name, (l, name) ∈ labels log → ∃ maxAlloc code, (l, maxAlloc, code) ∈ bindings log ∧
            p.slot? l = some ⟨name, maxAlloc, some code⟩) ∨
      (∃ l name, (l, name) ∈ labels log ∧ l ∉ bound log ∧
        (∀ p ∈ labels log, p.1 ∉ bound log → l.index ≤ p.1.index) ∧
        b.build entry journal = .error (.error (.unboundLabel name))) := by
  have R := records_of_run hrun
  refine ⟨requests_of_run hrun, R.labelled.nodup hsize, ?_, ?_, ?_, run_granted hrun, ?_, ?_,
    R.coded.once, ?_⟩
  · intro p hp
    rw [Label.isReserved_eq_false_iff]
    exact ((R.labelled.mem_iff hsize).mp hp).1
  · rintro earlier q a later l maxAlloc code rfl hq
    obtain ⟨c, d, hearlier, hstep⟩ := run_split hrun
    exact (records_of_run hearlier).answers_binding hq hstep
  · rintro earlier q e later rfl
    obtain ⟨c, d, hearlier, hstep⟩ := run_split hrun
    have hask := step_eq_error hstep
    obtain rfl := ask_eq_error hask
    exact ⟨_, hearlier, hask⟩
  · intro uid name
    have hknows := R.named.knows uid (.constructor name)
    rw [Names.knows_builtin] at hknows
    simpa [Names.Knows] using hknows
  · intro uid name
    have hknows := R.named.knows uid (.function name)
    rw [Names.knows_builtin] at hknows
    simpa [Names.Knows] using hknows
  · intro entry journal hentry
    cases hu : b.unbound? with
    | none =>
      have hall := R.all_bound hsize hu
      obtain ⟨journal', hbuild⟩ := build_of_none hu (R.labelled.lt_size hsize hentry) journal
      exact .inl ⟨hall, _, journal', hbuild, rfl, rfl, fun l name hl =>
        R.slot?_eq hsize entry hl (hall _ hl)⟩
    | some slot =>
      obtain ⟨l, hl, hunbound, hlowest⟩ := R.lowest_unbound hsize hu
      exact .inr ⟨l, slot.name, hl, hunbound, hlowest, build_of_some hu entry journal⟩

/-- A function, a constructor and two more labels, one of which is left without code, with some
requests in between that are refused. -/
def sketch : List (Request Nat) :=
  [.label "main", .declare (.constructor "Cons" 2 .boxed), .declare (.function "f" 1 3),
    .bind ⟨2⟩ 4 10, .bind ⟨2⟩ 0 20, .bind .programEnd 0 30,
    .declare (.constructor "Bad" 1 .unboxed), .define ⟨9, ⟨3⟩, 1, 3⟩ 40, .label "loose"]

/-- The sketch is no program until its last label is bound. -/
theorem building_sound_sketch :
    (∃ log, ∃ b : Builder .bits64 Nat, run sketch .empty = .ok log b ∧
      b.slots.size ≤ 2 ^ 32 ∧
      b.build ⟨2⟩ {} = .error (.error (.unboundLabel "loose"))) ∧
    ∃ log, ∃ b : Builder .bits64 Nat, ∃ p journal,
      run (sketch ++ [.bind ⟨4⟩ 0 50]) .empty = .ok log b ∧ b.slots.size ≤ 2 ^ 32 ∧
      b.build ⟨2⟩ {} = .ok (p, journal) ∧ p.names.function? 9 = some "f" ∧
      p.slot? ⟨3⟩ = some ⟨"f", 3, some 40⟩ := by
  constructor
  · obtain ⟨log, b, hrun, hsize, hlabels, hbound⟩ :
        ∃ log, ∃ b : Builder .bits64 Nat, run sketch .empty = .ok log b ∧
          b.slots.size ≤ 2 ^ 32 ∧ labels log = [(⟨2⟩, "main"), (⟨3⟩, "f"), (⟨4⟩, "loose")] ∧
          bound log = [⟨2⟩, ⟨3⟩] :=
      ⟨_, _, rfl, by decide, by decide, by decide⟩
    obtain ⟨_, _, _, _, _, _, _, _, _, hbuild⟩ := building_sound hrun hsize
    rw [hlabels, hbound] at hbuild
    refine ⟨log, b, hrun, hsize, ?_⟩
    obtain ⟨hall, _⟩ | ⟨l, name, hl, hunbound, _, herr⟩ := hbuild ⟨2⟩ {} (by decide)
    · exact absurd hall (by decide)
    · simp only [List.mem_cons, List.not_mem_nil, or_false, Prod.mk.injEq] at hl
      rcases hl with ⟨rfl, _⟩ | ⟨rfl, _⟩ | ⟨_, rfl⟩
      · exact absurd List.mem_cons_self hunbound
      · exact absurd (by decide) hunbound
      · exact herr
  · obtain ⟨log, b, hrun, hsize, hlabels, hbindings, hsymbols⟩ :
        ∃ log, ∃ b : Builder .bits64 Nat,
          run (sketch ++ [.bind ⟨4⟩ 0 50]) .empty = .ok log b ∧ b.slots.size ≤ 2 ^ 32 ∧
          labels log = [(⟨2⟩, "main"), (⟨3⟩, "f"), (⟨4⟩, "loose")] ∧
          bindings log = [(⟨2⟩, 4, 10), (⟨3⟩, 3, 40), (⟨4⟩, 0, 50)] ∧
          symbols log = [(8, .constructor "Cons"), (9, .function "f")] :=
      ⟨_, _, rfl, by decide, by decide, by decide, by decide⟩
    obtain ⟨_, _, _, _, _, _, _, hfunctions, _, hbuild⟩ := building_sound hrun hsize
    rw [hsymbols] at hfunctions
    rw [bound, hlabels, hbindings] at hbuild
    obtain ⟨_, p, journal, hp, _, hnames, hslots⟩ | ⟨_, _, hl, hunbound, _⟩ :=
      hbuild ⟨2⟩ {} (by decide)
    · obtain ⟨maxAlloc, code, hmem, hslot⟩ := hslots ⟨3⟩ "f" (by decide)
      refine ⟨log, b, p, journal, hrun, hsize, hp, ?_, ?_⟩
      · rw [hnames, hfunctions]
        decide
      · simp at hmem
        rw [hslot, hmem.1, hmem.2]
    · simp only [List.mem_cons, List.not_mem_nil, or_false, Prod.mk.injEq] at hl
      rcases hl with ⟨rfl, _⟩ | ⟨rfl, _⟩ | ⟨rfl, _⟩ <;> exact absurd (by decide) hunbound

end Builder

end Trampoline
