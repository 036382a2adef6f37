import Reckoner.Evaluation

/-!
# Reckoner.Store — a bounded store of evaluations

Evaluations are kept in a table by name. Beside the table stands the order in which they were
recorded, and a counter that names are made from; so names stay different for ever, also when older
evaluations are forgotten. All that is listed or counted is looked up in the table, name by name, and
a name without an evaluation would have nothing to show.

That there is no such name is an invariant (`Store.WellFormed`). Table and order agree
(`Store.Coherent`) when an evaluation is put in and when the oldest one is forgotten, and so they do
after each record.
-/

namespace Reckoner

/-! ## Tables -/

/-- Values by name. -/
abbrev Table (α : Type) := List (Bytes × α)

namespace Table

variable {α : Type}

/-- The table without a name. -/
def remove (t : Table α) (name : Bytes) : Table α := t.filter fun row => row.1 ≠ name

/-- The table with a value under a name, in place of the one that was there. -/
def put (t : Table α) (name : Bytes) (a : α) : Table α := (name, a) :: t.remove name

theorem lookup_remove (t : Table α) (name other : Bytes) :
    (t.remove name).lookup other = if other = name then none else t.lookup other := by
  induction t with
  | nil => simp [remove]
  | cons row rest ih =>
    obtain ⟨key, a⟩ := row
    simp only [remove, List.filter_cons] at ih ⊢
    by_cases hkey : key = name <;> by_cases hother : other = key <;> grind

theorem lookup_put (t : Table α) (name other : Bytes) (a : α) :
    (t.put name a).lookup other = if other = name then some a else t.lookup other := by
  rw [put, List.lookup_cons, lookup_remove]
  by_cases hother : other = name
  · simp [hother]
  · rw [if_neg hother, if_neg hother, beq_false_of_ne hother]

end Table

/-! ## Names -/

namespace Number

/-- Zeros in front do not change what digits stand for. -/
theorem ofDigits_zeros (k : Nat) (s : Bytes) :
    ofDigits (List.replicate k (byte '0') ++ s) = ofDigits s := by
  induction k with
  | zero => rfl
  | succ k ih => exact ih

theorem ofDigits_padLeft (width n : Nat) :
    ofDigits (Bytes.padLeft width (byte '0') (decimal n)) = n := by
  rw [Bytes.padLeft, ofDigits_zeros, ofDigits_decimal]

end Number

namespace History

/-- How many evaluations are kept when no limit is given. -/
def defaultLimit : Nat := 500

/-- The name of the evaluation with this number. -/
def nameOf (n : Nat) : Bytes := utf8 "eval-" ++ Bytes.padLeft 6 (byte '0') (Number.decimal n)

/-- Numbers show in names, also when they need more digits than others. -/
theorem nameOf_injective {m n : Nat} (h : nameOf m = nameOf n) : m = n := by
  have hdigits := List.append_cancel_left h
  rw [← Number.ofDigits_padLeft 6 m, hdigits, Number.ofDigits_padLeft]

/-- When an evaluation was made and how long it took. -/
structure Timing where
  created : Moment
  took : Span

end History

open History (nameOf Timing)

/-! ## The store -/

/-- A store of the latest evaluations. -/
structure Store where
  /-- How many evaluations are kept. -/
  limit : Nat
  /-- How many have ever been recorded. -/
  count : Nat
  /-- The kept ones, by name. -/
  evaluations : Table Evaluation
  /-- Their names, the oldest first. -/
  order : List Bytes

namespace Store

/-- An empty store; a limit that is not positive is no limit given. -/
def empty (limit : Int) : Store :=
  ⟨if limit ≤ 0 then History.defaultLimit else limit.toNat, 0, [], []⟩

/-- The evaluation that the next record makes. -/
def next (s : Store) (source : Bytes) (r : Run) (t : Timing) : Evaluation :=
  ⟨nameOf (s.count + 1), source, r.outcomes, r.fault.map Failure.ofFault, t.created, t.took⟩

/-- Forgets the oldest evaluation as long as there are more than the limit. -/
def evict (limit : Nat) (evaluations : Table Evaluation) :
    List Bytes → Table Evaluation × List Bytes
  | [] => (evaluations, [])
  | oldest :: rest =>
    if limit < (oldest :: rest).length then evict limit (evaluations.remove oldest) rest
    else (evaluations, oldest :: rest)

/-- Records a run: the evaluation is put into the table, its name is the last in the order, and what
is beyond the limit is forgotten. -/
def record (s : Store) (source : Bytes) (r : Run) (t : Timing) : Store :=
  let e := s.next source r t
  let (evaluations, order) := evict s.limit (s.evaluations.put e.name e) (s.order ++ [e.name])
  ⟨s.limit, s.count + 1, evaluations, order⟩

/-- The kept evaluation of this name. -/
def get? (s : Store) (name : Bytes) : Option Evaluation := s.evaluations.lookup name

/-- The kept evaluation of this name, or the fault that there is none. -/
def get (s : Store) (name : Bytes) : Except Fault Evaluation :=
  match s.get? name with
  | some e => .ok e
  | none => .error (.plain (utf8 "evaluation '" ++ name ++ utf8 "' not found"))

/-- What the table has for each name, the latest first. -/
def list (s : Store) : List (Option Evaluation) := s.order.reverse.map s.get?

/-- How many evaluations of each state there are; none if a name has no evaluation, which has no
state. -/
def stats? (s : Store) : Option Stats :=
  s.order.foldlM (fun stats name => (s.get? name).map stats.count) ⟨s.order.length, 0, 0⟩

/-! ## Table and order agree -/

/-- Table and order agree: no name is twice in the order, the names in it are those of the table,
and each evaluation is found under its own name. -/
structure Coherent (evaluations : Table Evaluation) (order : List Bytes) : Prop where
  distinct : order.Nodup
  isSome_iff : ∀ name, (evaluations.lookup name).isSome = true ↔ name ∈ order
  name_eq : ∀ name e, evaluations.lookup name = some e → e.name = name

variable {evaluations : Table Evaluation} {order : List Bytes}

theorem Coherent.nil : Coherent [] [] := ⟨.nil, by simp, by simp⟩

/-- An evaluation with a new name may be put in. -/
theorem Coherent.put (h : Coherent evaluations order) {e : Evaluation} (hnew : e.name ∉ order) :
    Coherent (evaluations.put e.name e) (order ++ [e.name]) where
  distinct := by
    rw [List.nodup_append]
    refine ⟨h.distinct, List.pairwise_singleton _ _, fun a ha b hb heq => hnew ?_⟩
    rw [← List.mem_singleton.1 hb, ← heq]
    exact ha
  isSome_iff name := by
    rw [Table.lookup_put, List.mem_append, List.mem_singleton]
    split
    · next heq => exact iff_of_true rfl (.inr heq)
    · next hne => simp [hne, h.isSome_iff]
  name_eq name e' hfound := by
    rw [Table.lookup_put] at hfound
    split at hfound
    · next heq => rw [← Option.some.inj hfound, heq]
    · exact h.name_eq name e' hfound

/-- The oldest evaluation may be forgotten. -/
theorem Coherent.remove {oldest : Bytes} {rest : List Bytes}
    (h : Coherent evaluations (oldest :: rest)) : Coherent (evaluations.remove oldest) rest where
  distinct := (List.nodup_cons.1 h.distinct).2
  isSome_iff name := by
    rw [Table.lookup_remove]
    split
    · next heq => exact iff_of_false nofun (heq ▸ (List.nodup_cons.1 h.distinct).1)
    · next hne => rw [h.isSome_iff, List.mem_cons, or_iff_right hne]
  name_eq name e hfound := by
    rw [Table.lookup_remove] at hfound
    split at hfound
    · cases hfound
    · exact h.name_eq name e hfound

/-- So may all that is beyond the limit. -/
theorem Coherent.evict (limit : Nat) (h : Coherent evaluations order) :
    Coherent (evict limit evaluations order).1 (evict limit evaluations order).2 := by
  induction order generalizing evaluations with
  | nil => exact h
  | cons oldest rest ih =>
    rw [Store.evict]
    split
    · exact ih h.remove
    · exact h

/-- The names that are left are the last ones. -/
theorem snd_evict (limit : Nat) (evaluations : Table Evaluation) (order : List Bytes) :
    (evict limit evaluations order).2 = order.drop (order.length - limit) := by
  induction order generalizing evaluations with
  | nil => rw [List.drop_nil, evict]
  | cons oldest rest ih =>
    rw [evict]
    split
    · next hmore =>
      have hdrop : (oldest :: rest).length - limit = (rest.length - limit) + 1 := by
        rw [List.length_cons] at hmore ⊢
        omega
      rw [ih, hdrop, List.drop_succ_cons]
    · next hfew => rw [Nat.sub_eq_zero_of_le (Nat.not_lt.1 hfew), List.drop_zero]

/-- The store is as its operations leave it: table and order agree, there are no more evaluations
than the limit, and all have names that were made from the counter. -/
structure WellFormed (s : Store) : Prop where
  coherent : Coherent s.evaluations s.order
  length_le : s.order.length ≤ s.limit
  exists_eq_nameOf : ∀ name ∈ s.order, ∃ i ≤ s.count, name = nameOf i

theorem WellFormed.empty (limit : Int) : (empty limit).WellFormed :=
  ⟨.nil, Nat.zero_le _, fun _ h => absurd h List.not_mem_nil⟩

/-- The name of the next evaluation is new. -/
theorem WellFormed.name_next_notMem {s : Store} (h : s.WellFormed) (source : Bytes) (r : Run)
    (t : Timing) : (s.next source r t).name ∉ s.order := by
  intro hmem
  obtain ⟨i, hi, hname⟩ := h.exists_eq_nameOf _ hmem
  have heq : s.count + 1 = i := History.nameOf_injective hname
  omega

/-- Table and order agree before anything is forgotten. -/
theorem WellFormed.coherent_put {s : Store} (h : s.WellFormed) (source : Bytes) (r : Run)
    (t : Timing) :
    let e := s.next source r t
    Coherent (s.evaluations.put e.name e) (s.order ++ [e.name]) :=
  h.coherent.put (h.name_next_notMem source r t)

/-- **A record leaves the store well formed.** -/
theorem WellFormed.record {s : Store} (h : s.WellFormed) (source : Bytes) (r : Run) (t : Timing) :
    (s.record source r t).WellFormed where
  coherent := (h.coherent_put source r t).evict s.limit
  length_le := by
    show (evict _ _ _).2.length ≤ s.limit
    rw [snd_evict, List.length_drop]
    omega
  exists_eq_nameOf name hname := by
    have hmem : name ∈ s.order ++ [(s.next source r t).name] := by
      have hleft : name ∈ (evict s.limit _ _).2 := hname
      rw [snd_evict] at hleft
      exact List.mem_of_mem_drop hleft
    rcases List.mem_append.1 hmem with hold | hnew
    · obtain ⟨i, hi, heq⟩ := h.exists_eq_nameOf name hold
      exact ⟨i, Nat.le_succ_of_le hi, heq⟩
    · exact ⟨s.count + 1, Nat.le_refl _, List.mem_singleton.1 hnew⟩

/-- Every name in the order has an evaluation. -/
theorem WellFormed.isSome_get? {s : Store} (h : s.WellFormed) {name : Bytes}
    (hname : name ∈ s.order) : (s.get? name).isSome = true :=
  (h.coherent.isSome_iff name).2 hname

theorem WellFormed.isSome_of_mem_list {s : Store} (h : s.WellFormed) :
    ∀ found ∈ s.list, found.isSome = true := by
  intro found hfound
  obtain ⟨name, hname, rfl⟩ := List.mem_map.1 hfound
  exact h.isSome_get? (List.mem_reverse.1 hname)

/-- Names that all have an evaluation are counted by what they find. -/
theorem foldlM_count {s : Store} {names : List Bytes}
    (h : ∀ name ∈ names, (s.get? name).isSome = true) (stats : Stats) :
    names.foldlM (fun stats name => (s.get? name).map stats.count) stats
      = some ((names.filterMap s.get?).foldl Stats.count stats) := by
  induction names generalizing stats with
  | nil => rfl
  | cons name rest ih =>
    obtain ⟨hname, hrest⟩ := List.forall_mem_cons.1 h
    obtain ⟨e, he⟩ := Option.isSome_iff_exists.1 hname
    rw [List.foldlM_cons, he, List.filterMap_cons_some he]
    exact ih hrest _

theorem WellFormed.isSome_stats? {s : Store} (h : s.WellFormed) : s.stats?.isSome = true := by
  rw [stats?, foldlM_count fun _ hname => h.isSome_get? hname]
  rfl

end Store

end Reckoner
