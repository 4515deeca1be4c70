import Trampoline.Proofs.Agreement

/-!
The uids that declarations get.

Constructors and functions get uids in the order in which they are declared, from the first one that
is not kept for the builtin constructors. At 32 bits all uids are given out, and a declaration for
which none is left is refused. At 64 bits the last uid is never given out: the number that is counted
on to does not fit, so that declaration traps, and so does every later one.
-/

namespace Trampoline

variable {w : Width} {κ : Type}

inductive Symbol where
  | constructor (name : String)
  | function (name : String)
deriving DecidableEq, Repr

namespace Declaration

/-- The number of fields or of arguments can be written into a header, and an unboxed constructor
has no fields. -/
def Valid (w : Width) : Declaration → Prop
  | constructor _ fields r => fields ≤ w.maxFields ∧ (r = .unboxed → fields = 0)
  | function _ arity _ => arity ≤ w.maxFields

theorem Valid.fields {name : String} {fields : Nat} {r : Representation}
    (h : (constructor name fields r).Valid w) :
    ¬(w.maxFields < fields || (r == .unboxed && fields != 0)) = true := by
  obtain ⟨hle, hnone⟩ := h
  cases r with
  | boxed => simpa using hle
  | unboxed => simp [hnone rfl]

def symbol : Declaration → Symbol
  | constructor name _ _ => .constructor name
  | function name _ _ => .function name

end Declaration

/-! ### Names -/

namespace Names

variable {n : Names} {uid : Nat}

def Knows (n : Names) (uid : Nat) : Symbol → Prop
  | .constructor name => n.constructor? uid = some name
  | .function name => n.function? uid = some name

def enter (n : Names) (uid : Nat) : Symbol → Names
  | .constructor name => { n with constructors := record n.constructors uid name }
  | .function name => { n with functions := record n.functions uid name }

/-- A table has a new name where it was recorded, and its old ones everywhere else. -/
theorem join_getElem?_record (table : Array (Option String)) (uid : Nat) (name : String) (i : Nat) :
    (record table uid name)[i]?.join = if i = uid then some name else table[i]?.join := by
  have hsize : uid < (table ++ Array.replicate (uid + 1 - table.size) none).size := by
    rw [Array.size_append, Array.size_replicate]
    omega
  rw [record, Array.getElem?_setIfInBounds]
  by_cases hi : i = uid
  · rw [if_pos hi.symm, if_pos hi, if_pos hsize, Option.join_some]
  · rw [if_neg (Ne.symm hi), if_neg hi, Array.getElem?_append]
    split
    · rfl
    · next hout =>
      rw [Array.getElem?_replicate, Array.getElem?_eq_none (Nat.not_lt.mp hout)]
      split <;> rfl

/-- A symbol that is entered under a new uid is known by it, and nothing else changes. -/
theorem knows_enter (hnew : ∀ t, ¬ n.Knows uid t) (s : Symbol) (i : Nat) (t : Symbol) :
    (n.enter uid s).Knows i t ↔ n.Knows i t ∨ (i, t) = (uid, s) := by
  by_cases hi : i = uid
  · subst hi
    have hold := hnew t
    cases s <;> cases t <;>
      simp_all [enter, Knows, constructor?, function?, join_getElem?_record, eq_comm]
  · cases s <;> cases t <;>
      simp [enter, Knows, constructor?, function?, join_getElem?_record, hi]

theorem knows_builtin {s : Symbol} :
    builtin.Knows uid s ↔
      (uid, s) ∈
        [(0, .constructor "False"), (1, .constructor "True"), (2, .constructor "Unit")] := by
  rcases uid with _ | _ | _ | _ | _ | _ | _ | _ | uid <;> cases s <;>
    simp [builtin, Knows, constructor?, function?, Uid.first, eq_comm]

end Names

namespace Width

/-- The first uid that is not given out: the one after the last uid at 32 bits, the last one at 64
bits. -/
def uidStop : Width → Nat
  | .bits32 => Width.maxUid .bits32 + 1
  | .bits64 => Width.maxUid .bits64

theorem uidStop_le (w : Width) : w.uidStop ≤ w.maxUid + 1 ∧ w.uidStop < 0x100000000 := by
  cases w <;> decide

/-- How a declaration fails for which no uid is left. -/
def exhaustion : (w : Width) → Fault w ProgramError
  | .bits32 => .error .tooManyUids
  | .bits64 => .trap .bounds

end Width

namespace Builder

variable {b b' : Builder w κ} {d : Declaration} {ds es : List Declaration}
  {fault : Fault w ProgramError}

/-! ### Calls -/

/-- What giving out the next uid makes of a builder. -/
def counted (b : Builder w κ) : Builder w κ := { b with nextUid := b.nextUid + 1 }

theorem freshUid_of_lt (h : b.nextUid < w.uidStop) : freshUid b = .ok b.nextUid b.counted := by
  obtain ⟨hlast, hcount⟩ := w.uidStop_le
  have hleft : ¬ w.maxUid < b.nextUid := by omega
  have hfits : b.nextUid + 1 < 0x100000000 := by omega
  refine (bind_of_ok rfl).trans ?_
  simp only [if_neg hleft, if_pos hfits]
  rfl

theorem freshUid_of_eq (h : b.nextUid = w.uidStop) : freshUid b = .error w.exhaustion b := by
  refine (bind_of_ok rfl).trans ?_
  rw [h]
  cases w <;> rfl

theorem freshUid_eq_ok {uid : Nat} (h : freshUid b = .ok uid b') :
    uid = b.nextUid ∧ b' = b.counted := by
  replace h := (bind_of_ok rfl).symm.trans h
  split at h
  · cases h
  · split at h
    · cases h
      exact ⟨rfl, rfl⟩
    · cases h

theorem freshUid_eq_error (h : freshUid b = .error fault b') : b' = b := by
  replace h := (bind_of_ok rfl).symm.trans h
  split at h
  · cases h
    rfl
  · split at h
    · cases h
    · cases h
      rfl

def withConstructor (b : Builder w κ) (name : String) : Builder w κ :=
  { b.counted with names := b.names.enter b.nextUid (.constructor name) }

def withFunction (b : Builder w κ) (name : String) : Builder w κ :=
  { b.counted with
    slots := b.slots.push { name }
    names := b.names.enter b.nextUid (.function name) }

section

variable {name : String} {fields arity maxAlloc : Nat} {r : Representation} {l : Label} {code : κ}

theorem constructor_eq_ok {c : Constructor} (h : constructor name fields r b = .ok c b') :
    c = ⟨b.nextUid, fields, r⟩ ∧ b' = b.withConstructor name := by
  unfold constructor at h
  split at h
  · cases h
  · obtain ⟨uid, d, huid, h⟩ := of_bind_eq_ok h
    obtain ⟨rfl, rfl⟩ := freshUid_eq_ok huid
    cases h
    exact ⟨rfl, rfl⟩

/-- What a function that was declared has made of the builder. -/
theorem function_eq_ok {f : Function} (h : function name arity maxAlloc b = .ok f b') :
    arity ≤ w.maxFields ∧ f = ⟨b.nextUid, .ofNat b.slots.size, arity, maxAlloc⟩ ∧
      b' = b.withFunction name := by
  unfold function at h
  split at h
  · cases h
  · next hle =>
    obtain ⟨uid, d, huid, h⟩ := of_bind_eq_ok h
    obtain ⟨rfl, rfl⟩ := freshUid_eq_ok huid
    cases h
    exact ⟨Nat.le_of_not_lt hle, rfl, rfl⟩

theorem bind_apply (b : Builder w κ) (l : Label) (maxAlloc : Nat) (code : κ) :
    bind l maxAlloc code b =
      match b.slots[l.index]? with
      | none => .error (.trap .bounds) b
      | some slot =>
        if l.isReserved || slot.code.isSome then .error (.error (.duplicateBinding slot.name)) b
        else .ok ()
          { b with slots := b.slots.setIfInBounds l.index ⟨slot.name, maxAlloc, some code⟩ } := by
  rw [bind]
  refine (bind_of_ok (x := get) rfl).trans ?_
  cases b.slots[l.index]? with
  | none => rfl
  | some slot =>
    dsimp only
    split <;> rfl

/-- A label that was bound had no code, and has code now. -/
theorem bind_eq_ok {u : Unit} (h : bind l maxAlloc code b = .ok u b') :
    ∃ slot, b.slots[l.index]? = some slot ∧ l.isReserved = false ∧ slot.code = none ∧
      b' = { b with slots := b.slots.setIfInBounds l.index ⟨slot.name, maxAlloc, some code⟩ } := by
  rw [bind_apply] at h
  split at h
  · cases h
  · next slot hslot =>
    split at h
    · cases h
    · next hfree =>
      cases h
      rw [Bool.not_eq_true, Bool.or_eq_false_iff, Option.isSome_eq_false_iff,
        Option.isNone_iff_eq_none] at hfree
      exact ⟨slot, hslot, hfree.1, hfree.2, rfl⟩

/-- Once a declaration has its uid it cannot fail any more, so none stops half way. -/
theorem constructor_eq_error (h : constructor name fields r b = .error fault b') : b' = b := by
  unfold constructor at h
  split at h
  · cases h
    rfl
  · rcases of_bind_eq_error h with huid | ⟨uid, d, _, h⟩
    · exact freshUid_eq_error huid
    · cases h

theorem function_eq_error (h : function name arity maxAlloc b = .error fault b') : b' = b := by
  unfold function at h
  split at h
  · cases h
    rfl
  · rcases of_bind_eq_error h with huid | ⟨uid, d, _, h⟩
    · exact freshUid_eq_error huid
    · cases h

/-- The slot is looked at before it is written. -/
theorem bind_eq_error (h : bind l maxAlloc code b = .error fault b') : b' = b := by
  rw [bind_apply] at h
  split at h
  · cases h
    rfl
  · split at h
    · cases h
      rfl
    · cases h

end

/-! ### Given uids -/

/-- Uids have been given out in order, and the names are the builtin ones and those that uids were
given out for. -/
structure Named (b : Builder w κ) (given : List (Nat × Symbol)) : Prop where
  uids : given.map Prod.fst = List.range' Uid.first given.length
  next : b.nextUid = Uid.first + given.length
  knows : ∀ uid s, b.names.Knows uid s ↔ Names.builtin.Knows uid s ∨ (uid, s) ∈ given

theorem named_empty : Named (.empty : Builder w κ) [] where
  uids := rfl
  next := rfl
  knows _ _ := (or_iff_left List.not_mem_nil).symm

namespace Named

variable {given : List (Nat × Symbol)}

theorem not_knows_next (N : Named b given) (s : Symbol) : ¬ b.names.Knows b.nextUid s := by
  rw [N.knows, N.next]
  rintro (hbuiltin | hgiven)
  · rw [Names.knows_builtin] at hbuiltin
    simp [Uid.first] at hbuiltin
    omega
  · have hmem := List.mem_map_of_mem (f := Prod.fst) hgiven
    rw [N.uids, List.mem_range'_1] at hmem
    omega

/-- Slots do not matter. -/
theorem slots (N : Named b given) (slots : Array (Slot κ)) :
    Named ({ b with slots } : Builder w κ) given where
  uids := N.uids
  next := N.next
  knows := N.knows

theorem enter (N : Named b given) (s : Symbol) (hnext : b'.nextUid = b.nextUid + 1)
    (hnames : b'.names = b.names.enter b.nextUid s) : Named b' (given ++ [(b.nextUid, s)]) where
  uids := by
    rw [List.map_append, N.uids, List.length_append, List.length_singleton, List.range'_concat,
      N.next]
    simp
  next := by rw [hnext, N.next, List.length_append, List.length_singleton, Nat.add_assoc]
  knows uid t := by
    rw [hnames, Names.knows_enter N.not_knows_next, N.knows, List.mem_append, List.mem_singleton,
      or_assoc]

end Named

/-! ### Declarations -/

/-- A valid declaration for which a uid is left gets it. -/
theorem declare_of_lt (hd : d.Valid w) (h : b.nextUid < w.uidStop) :
    ∃ b', declare d b = .ok b.nextUid b' ∧ b'.nextUid = b.nextUid + 1 ∧
      b'.names = b.names.enter b.nextUid d.symbol := by
  cases d with
  | constructor name fields r =>
    have hcall : constructor name fields r b = .ok ⟨b.nextUid, fields, r⟩ (b.withConstructor name) := by
      rw [constructor, if_neg hd.fields]
      exact bind_of_ok (freshUid_of_lt h)
    exact ⟨b.withConstructor name, bind_of_ok hcall, rfl, rfl⟩
  | function name arity maxAlloc =>
    have hcall : function name arity maxAlloc b =
        .ok ⟨b.nextUid, .ofNat b.slots.size, arity, maxAlloc⟩ (b.withFunction name) := by
      rw [function, if_neg (Nat.not_lt.mpr hd)]
      exact bind_of_ok (freshUid_of_lt h)
    exact ⟨b.withFunction name, bind_of_ok hcall, rfl, rfl⟩

/-- One for which none is left fails. -/
theorem declare_of_eq (hd : d.Valid w) (h : b.nextUid = w.uidStop) :
    declare d b = .error w.exhaustion b := by
  cases d with
  | constructor name fields r =>
    refine bind_of_error (?_ : constructor name fields r b = _)
    rw [constructor, if_neg hd.fields]
    exact bind_of_error (freshUid_of_eq h)
  | function name arity maxAlloc =>
    refine bind_of_error (?_ : function name arity maxAlloc b = _)
    rw [function, if_neg (Nat.not_lt.mpr hd)]
    exact bind_of_error (freshUid_of_eq h)

/-- Make declarations in turn, each on the builder that the one before it has left: the uids or
failures, and the last builder. -/
def declareAll (b : Builder w κ) :
    List Declaration → List (Except (Fault w ProgramError) Nat) × Builder w κ
  | [] => ([], b)
  | d :: ds =>
    match declare d b with
    | .ok uid b' => (.ok uid :: (b'.declareAll ds).1, (b'.declareAll ds).2)
    | .error e b' => (.error e :: (b'.declareAll ds).1, (b'.declareAll ds).2)

theorem declareAll_append (b : Builder w κ) (ds es : List Declaration) :
    b.declareAll (ds ++ es) =
      ((b.declareAll ds).1 ++ ((b.declareAll ds).2.declareAll es).1,
        ((b.declareAll ds).2.declareAll es).2) := by
  induction ds generalizing b with
  | nil => rfl
  | cons d ds ih =>
    rw [List.cons_append, declareAll, declareAll]
    cases declare d b <;> simp [ih]

/-- The uids from some number on, with the symbols of the declarations that get them. -/
def uidsFrom (uid : Nat) (ds : List Declaration) : List (Nat × Symbol) :=
  (List.range' uid ds.length).zip (ds.map (·.symbol))

/-- While uids are left, each declaration gets the next one. -/
theorem declareAll_of_le {given : List (Nat × Symbol)} (N : Named b given)
    (hds : ∀ d ∈ ds, d.Valid w) (hb : b.nextUid + ds.length ≤ w.uidStop) :
    ∃ b', b.declareAll ds = ((List.range' b.nextUid ds.length).map .ok, b') ∧
      Named b' (given ++ uidsFrom b.nextUid ds) := by
  induction ds generalizing b given with
  | nil => exact ⟨b, rfl, by simpa [uidsFrom] using N⟩
  | cons d ds ih =>
    obtain ⟨hd, hds⟩ := List.forall_mem_cons.mp hds
    rw [List.length_cons] at hb
    obtain ⟨b', hdeclare, hnext, hnames⟩ := declare_of_lt hd (by omega : b.nextUid < w.uidStop)
    have hleft : b'.nextUid + ds.length ≤ w.uidStop := by omega
    obtain ⟨b'', hrest, N''⟩ := ih (N.enter d.symbol hnext hnames) hds hleft
    refine ⟨b'', ?_, ?_⟩
    · simp only [declareAll, hdeclare, hrest, hnext, List.length_cons, List.range'_succ,
        List.map_cons]
    · rw [hnext, List.append_assoc] at N''
      exact N''

/-- Once they are used up, every declaration fails and leaves the builder as it is. -/
theorem declareAll_of_exhausted (hds : ∀ d ∈ ds, d.Valid w) (hb : b.nextUid = w.uidStop) :
    b.declareAll ds = (List.replicate ds.length (.error w.exhaustion), b) := by
  induction ds with
  | nil => rfl
  | cons d ds ih =>
    obtain ⟨hd, hds⟩ := List.forall_mem_cons.mp hds
    simp only [declareAll, declare_of_eq hd hb, ih hds, List.length_cons, List.replicate_succ]

/-- Whatever is declared, as long as it is valid: the declarations get the uids from the first one
that is not kept for the builtin constructors to the last one before `uidStop`, in order, each under
its own name, and there are no other names than these and the builtin ones. Every later declaration
fails, at 32 bits with the error for this and at 64 bits with a trap, and leaves the builder
unchanged. -/
theorem declareAll_exhausts (hds : ∀ d ∈ ds, d.Valid w) :
    let n := w.uidStop - Uid.first
    ∃ b : Builder w κ,
      Builder.empty.declareAll (ds.take n) =
        ((List.range' Uid.first (min n ds.length)).map .ok, b) ∧
      b.nextUid = Uid.first + min n ds.length ∧
      (∀ uid s, b.names.Knows uid s ↔
        Names.builtin.Knows uid s ∨ (uid, s) ∈ uidsFrom Uid.first (ds.take n)) ∧
      b.declareAll (ds.drop n) = (List.replicate (ds.length - n) (.error w.exhaustion), b) ∧
      Builder.empty.declareAll ds =
        ((List.range' Uid.first (min n ds.length)).map .ok ++
          List.replicate (ds.length - n) (.error w.exhaustion), b) := by
  intro n
  have hstop : Uid.first + n = w.uidStop := by
    have hle : Uid.first ≤ w.uidStop := by cases w <;> decide
    omega
  have hlength : (ds.take n).length = min n ds.length := List.length_take
  obtain ⟨b, hfirst, N⟩ := declareAll_of_le (named_empty (w := w) (κ := κ))
    (fun d hd => hds d (List.mem_of_mem_take hd))
    (by rw [hlength]; change Uid.first + _ ≤ _; omega)
  rw [hlength] at hfirst
  rw [List.nil_append] at N
  have hnext : b.nextUid = Uid.first + min n ds.length := by
    rw [N.next, uidsFrom, List.length_zip, List.length_range', List.length_map, Nat.min_self, hlength]
  have hrest : b.declareAll (ds.drop n) =
      (List.replicate (ds.length - n) (.error w.exhaustion), b) := by
    by_cases hle : ds.length ≤ n
    · rw [List.drop_eq_nil_of_le hle, Nat.sub_eq_zero_of_le hle]
      rfl
    · -- all uids have been given out
      rw [declareAll_of_exhausted (fun d hd => hds d (List.mem_of_mem_drop hd)) (by omega),
        List.length_drop]
  refine ⟨b, hfirst, hnext, N.knows, hrest, ?_⟩
  rw [← List.take_append_drop n ds, declareAll_append, List.take_append_drop, hfirst, hrest]
  rfl

def unary : Declaration := .constructor "K" 1 .boxed

theorem valid_unary (w : Width) : unary.Valid w := ⟨by cases w <;> decide, fun h => by cases h⟩

theorem valid_replicate_unary (w : Width) (n : Nat) : ∀ d ∈ List.replicate n unary, d.Valid w := by
  intro d hd
  rw [List.eq_of_mem_replicate hd]
  exact valid_unary w

/-- At 32 bits there are uids for all but the last two of so many declarations. -/
theorem declareAll_exhausts_replicate :
    (∀ d ∈ List.replicate 0x1ffffa unary, d.Valid .bits32) ∧
    ∃ b : Builder .bits32 Unit,
      Builder.empty.declareAll (List.replicate 0x1ffffa unary) =
        ((List.range' 8 0x1ffff8).map .ok ++
          List.replicate 2 (.error (.error .tooManyUids)), b) := by
  obtain ⟨b, _, _, _, _, hall⟩ := declareAll_exhausts (κ := Unit) (valid_replicate_unary .bits32 0x1ffffa)
  rw [List.length_replicate] at hall
  exact ⟨valid_replicate_unary .bits32 _, b, hall⟩

/-- At 64 bits the declaration that should get the last uid traps. -/
theorem last_uid_traps :
    unary.Valid .bits64 ∧
    ∃ b : Builder .bits64 Unit,
      Builder.empty.declareAll (List.replicate (Width.maxUid .bits64 - 8) unary) =
        ((List.range' 8 (Width.maxUid .bits64 - 8)).map .ok, b) ∧
      b.nextUid = Width.maxUid .bits64 ∧ declare unary b = .error (.trap .bounds) b := by
  obtain ⟨b, hall, N⟩ := declareAll_of_le (named_empty (w := .bits64) (κ := Unit))
    (valid_replicate_unary .bits64 (Width.maxUid .bits64 - 8))
    (by rw [List.length_replicate]; decide)
  rw [List.nil_append] at N
  have hnext : b.nextUid = Width.maxUid .bits64 := by
    rw [N.next, uidsFrom, List.length_zip, List.length_range', List.length_map, Nat.min_self,
      List.length_replicate]
    rfl
  rw [List.length_replicate] at hall
  exact ⟨valid_unary .bits64, b, hall, hnext, declare_of_eq (valid_unary .bits64) hnext⟩

end Builder

end Trampoline
