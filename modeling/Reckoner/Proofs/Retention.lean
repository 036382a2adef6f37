import Mathlib.Data.List.Induction
import Mathlib.Data.List.Nodup
import Reckoner.History

/-!
# Reckoner.Proofs.Retention — what a store remembers

A store is a table, an order of names and a counter, which have to go together. To its users it is a
bounded list of evaluations (`Store.kept`): what it lists, finds and counts is what that list has
(`Store.WellFormed.shows`), and recording puts the new evaluation in front of the list and cuts it at
the limit, whatever the loop that forgets does with the table (`Store.WellFormed.kept_record`).

`recorded` is the list of all the evaluations that a sequence of records makes, oldest first, with
nothing forgotten. One record adds the evaluation it makes to that list (`Remembers.record`), so
after any number of them a store shows the end of the list, as long as its limit allows
(`Store.remembers_recordAll`). A history is a store, and shows the same.

Main statement: `Store.recordAll_keeps_latest`.
-/

namespace Reckoner

/-! ## Numbers of a least width -/

namespace Number

/-- The digits of a number, at least `width` of them: zeros stand in front to reach the width, and
not beyond it. -/
structure Padded (width n : Nat) (digits : Bytes) : Prop where
  isDigit : ∀ b ∈ digits, Bytes.isDigit b = true
  value : ofDigits digits = n
  width_le : width ≤ digits.length
  no_zero : width < digits.length → digits.head? ≠ some (byte '0')

theorem toNat_digit (n : Nat) : (digit n).toNat = 48 + n % 10 := by
  have h : n % 10 < 10 := Nat.mod_lt _ (by decide)
  simp only [digit, Nat.toUInt8, UInt8.toNat_ofNat']
  omega

theorem isDigit_digit (n : Nat) : Bytes.isDigit (digit n) = true := by
  have h : n % 10 < 10 := Nat.mod_lt _ (by decide)
  have hvalue := toNat_digit n
  simp only [Bytes.isDigit, UInt8.le_iff_toNat_le, Bool.and_eq_true, decide_eq_true_eq]
  exact ⟨by simp only [UInt8.reduceToNat]; omega, by simp only [UInt8.reduceToNat]; omega⟩

theorem isDigit_of_mem_decimal {n : Nat} : ∀ b ∈ decimal n, Bytes.isDigit b = true := by
  fun_induction decimal n with
  | case1 n _ => simpa using isDigit_digit n
  | case2 n _ ih =>
    intro b hb
    rcases List.mem_append.1 hb with hb | hb
    · exact ih b hb
    · rw [List.mem_singleton.1 hb]
      exact isDigit_digit n

theorem decimal_ne_nil (n : Nat) : decimal n ≠ [] := by
  unfold decimal
  split <;> simp

/-- The first digit of a positive number is not zero. -/
theorem head?_decimal_ne {n : Nat} (h : 0 < n) : (decimal n).head? ≠ some (byte '0') := by
  fun_induction decimal n with
  | case1 n hlt =>
    intro hzero
    have hdigit : digit n = byte '0' := by simpa using hzero
    have hvalue := toNat_digit n
    rw [hdigit] at hvalue
    have hbyte : (byte '0').toNat = 48 := rfl
    omega
  | case2 n hge ih =>
    obtain ⟨b, hb⟩ := Option.isSome_iff_exists.1 (List.isSome_head?.2 (decimal_ne_nil (n / 10)))
    have hfront := ih (by omega)
    rw [hb] at hfront
    rwa [List.head?_append, hb]

theorem isDigit_of_mem_padLeft {width n : Nat} :
    ∀ b ∈ Bytes.padLeft width (byte '0') (decimal n), Bytes.isDigit b = true := by
  intro b hb
  rcases List.mem_append.1 hb with hb | hb
  · rw [List.eq_of_mem_replicate hb]
    rfl
  · exact isDigit_of_mem_decimal b hb

theorem padded_padLeft (width : Nat) {n : Nat} (h : 0 < n) :
    Padded width n (Bytes.padLeft width (byte '0') (decimal n)) where
  isDigit := isDigit_of_mem_padLeft
  value := ofDigits_padLeft width n
  width_le := by
    simp only [Bytes.padLeft, List.length_append, List.length_replicate]
    omega
  no_zero hlong := by
    simp only [Bytes.padLeft, List.length_append, List.length_replicate] at hlong ⊢
    -- digits beyond the width are the number's own
    have hnone : width - (decimal n).length = 0 := by omega
    rw [hnone]
    exact head?_decimal_ne h

end Number

/-! ## A store is a bounded list -/

/-- The numbers of evaluations. -/
def Stats.ofList (evaluations : List Evaluation) : Stats where
  total := evaluations.length
  succeeded := evaluations.countP (·.state = .succeeded)
  failed := evaluations.countP (·.state = .failed)

/-- Evaluations that are counted one by one are all counted, each with its state. -/
theorem Stats.foldl_count (evaluations : List Evaluation) (stats : Stats) :
    evaluations.foldl count stats
      = ⟨stats.total, stats.succeeded + (ofList evaluations).succeeded,
          stats.failed + (ofList evaluations).failed⟩ := by
  induction evaluations generalizing stats with
  | nil => rfl
  | cons e rest ih =>
    rw [List.foldl_cons, ih]
    simp only [ofList, List.countP_cons, count]
    cases e.state <;> simp <;> omega

/-- Every evaluation is counted with its state. -/
theorem Stats.succeeded_add_failed (evaluations : List Evaluation) :
    (ofList evaluations).succeeded + (ofList evaluations).failed = (ofList evaluations).total := by
  show evaluations.countP _ + evaluations.countP _ = evaluations.length
  rw [List.length_eq_countP_add_countP (fun e : Evaluation => e.state = .succeeded)]
  congr 2
  funext e
  cases e.state <;> rfl

theorem map_eq_map_some {α β : Type} {f : α → Option β} {l : List α}
    (h : ∀ a ∈ l, (f a).isSome = true) : l.map f = (l.filterMap f).map some := by
  induction l with
  | nil => rfl
  | cons a rest ih =>
    obtain ⟨ha, hrest⟩ := List.forall_mem_cons.1 h
    obtain ⟨b, hb⟩ := Option.isSome_iff_exists.1 ha
    rw [List.map_cons, List.filterMap_cons_some hb, List.map_cons, hb, ih hrest]

/-- Where nothing is left out, the first ones are those of the first. -/
theorem filterMap_take {α β : Type} {f : α → Option β} {l : List α}
    (h : ∀ a ∈ l, (f a).isSome = true) (n : Nat) :
    (l.take n).filterMap f = (l.filterMap f).take n := by
  apply List.map_injective_iff.2 fun _ _ => Option.some.inj
  have hfirst : ∀ a ∈ l.take n, (f a).isSome = true := fun a ha => h a (List.mem_of_mem_take ha)
  rw [← map_eq_map_some hfirst, List.map_take, map_eq_map_some h, List.map_take]

namespace Store

/-- The evaluations of a store, the latest first. -/
def kept (s : Store) : List Evaluation := s.order.reverse.filterMap s.get?

/-- `s.Shows kept`: to its users the store is this list. They are given every evaluation that is
listed, a name finds the one that has it, and all are counted. -/
structure Shows (s : Store) (kept : List Evaluation) : Prop where
  list : s.list = kept.map some
  get? : ∀ name, s.get? name = kept.find? (·.name = name)
  stats? : s.stats? = some (.ofList kept)

/-- What is not forgotten stays as it was. -/
theorem Coherent.lookup_evict {evaluations : Table Evaluation} {order : List Bytes}
    (h : Coherent evaluations order) (limit : Nat) {name : Bytes}
    (hname : name ∈ (Store.evict limit evaluations order).2) :
    (Store.evict limit evaluations order).1.lookup name = evaluations.lookup name := by
  induction order generalizing evaluations with
  | nil => rfl
  | cons oldest rest ih =>
    rw [Store.evict] at hname ⊢
    split at hname
    · next hmore =>
      -- the names that are left stand behind the oldest one, and it is not among them
      have hrest : name ∈ rest := by
        rw [snd_evict] at hname
        exact List.mem_of_mem_drop hname
      have hne : name ≠ oldest := by
        rintro rfl
        exact (List.nodup_cons.1 h.distinct).1 hrest
      rw [if_pos hmore, ih h.remove hname, Table.lookup_remove, if_neg hne]
    · next hfew => rw [if_neg hfew]

namespace WellFormed

variable {s : Store} (h : s.WellFormed)

include h

theorem isSome_of_mem_reverse : ∀ name ∈ s.order.reverse, (s.get? name).isSome = true :=
  fun _ hname => h.isSome_get? (List.mem_reverse.1 hname)

/-- The evaluations have the names of the order. -/
theorem map_name_kept : s.kept.map (·.name) = s.order.reverse := by
  apply List.map_injective_iff.2 fun _ _ => Option.some.inj
  calc (s.kept.map (·.name)).map some = (s.order.reverse.map s.get?).map (Option.map (·.name)) := by
        rw [map_eq_map_some h.isSome_of_mem_reverse, List.map_map, List.map_map]
        rfl
    _ = s.order.reverse.map some := by
        rw [List.map_map]
        apply List.map_congr_left
        intro name hname
        obtain ⟨e, he⟩ := Option.isSome_iff_exists.1 (h.isSome_of_mem_reverse name hname)
        rw [Function.comp_apply, he, Option.map_some, h.coherent.name_eq name e he]

theorem nodup_names : (s.kept.map (·.name)).Nodup := by
  rw [h.map_name_kept]
  exact List.nodup_reverse.2 h.coherent.distinct

theorem length_kept_le : s.kept.length ≤ s.limit := by
  have hlength := congrArg List.length h.map_name_kept
  rw [List.length_map, List.length_reverse] at hlength
  rw [hlength]
  exact h.length_le

/-- A name finds an evaluation just if it is kept and has that name. -/
theorem get?_eq_some_iff {name : Bytes} {e : Evaluation} :
    s.get? name = some e ↔ e ∈ s.kept ∧ e.name = name := by
  constructor
  · intro hfound
    have hname : name ∈ s.order := (h.coherent.isSome_iff name).1 (Option.isSome_of_eq_some hfound)
    exact ⟨List.mem_filterMap.2 ⟨name, List.mem_reverse.2 hname, hfound⟩,
      h.coherent.name_eq name e hfound⟩
  · rintro ⟨hkept, rfl⟩
    obtain ⟨name, -, hfound⟩ := List.mem_filterMap.1 hkept
    rw [h.coherent.name_eq name e hfound]
    exact hfound

/-- **To its users a store is a bounded list.** -/
theorem shows : s.Shows s.kept where
  list := map_eq_map_some h.isSome_of_mem_reverse
  get? name := by
    cases hfound : s.kept.find? (·.name = name) with
    | some e =>
      refine h.get?_eq_some_iff.2 ⟨List.mem_of_find?_eq_some hfound, ?_⟩
      simpa using List.find?_some hfound
    | none =>
      by_contra hne
      obtain ⟨e, he⟩ := Option.ne_none_iff_exists'.1 hne
      obtain ⟨hkept, hname⟩ := h.get?_eq_some_iff.1 he
      have hother := List.find?_eq_none.1 hfound e hkept
      simp [hname] at hother
  stats? := by
    have hlength : s.kept.length = s.order.length := by
      rw [← List.length_map (·.name), h.map_name_kept, List.length_reverse]
    -- the names are counted from the oldest on, and listed the other way round
    have hreverse : s.order.filterMap s.get? = s.kept.reverse := by
      rw [kept, List.filterMap_reverse, List.reverse_reverse]
    rw [Store.stats?, foldlM_count fun _ hname => h.isSome_get? hname, hreverse,
      Stats.foldl_count]
    simp only [Stats.ofList, List.countP_reverse, Nat.zero_add, hlength]

/-- **A record on the store is a record on the list**: the new evaluation is put in front, and the
list is cut at the limit. -/
theorem kept_record (source : Bytes) (r : Run) (t : History.Timing) :
    (s.record source r t).kept = (s.next source r t :: s.kept).take s.limit := by
  let e := s.next source r t
  let evaluations := s.evaluations.put e.name e
  let order := s.order ++ [e.name]
  have hput : Coherent evaluations order := h.coherent_put source r t
  have hnew : e.name ∉ s.order := h.name_next_notMem source r t
  have hleft : (evict s.limit evaluations order).2.reverse = order.reverse.take s.limit := by
    rw [snd_evict, List.take_reverse]
  -- what is left is found as before anything was forgotten
  have hsame : (s.record source r t).kept
      = (order.reverse.take s.limit).filterMap (evaluations.lookup ·) := by
    rw [← hleft]
    apply List.filterMap_congr
    intro name hname
    exact hput.lookup_evict s.limit (List.mem_reverse.1 hname)
  have hfound : ∀ name ∈ order.reverse, (evaluations.lookup name).isSome = true :=
    fun name hname => (hput.isSome_iff name).2 (List.mem_reverse.1 hname)
  -- and before that, the new evaluation stands in front of those that were there
  have hfirst : evaluations.lookup e.name = some e := by rw [Table.lookup_put, if_pos rfl]
  have hothers : s.order.reverse.filterMap (evaluations.lookup ·) = s.kept := by
    apply List.filterMap_congr
    intro name hname
    have hne : name ≠ e.name := by
      rintro rfl
      exact hnew (List.mem_reverse.1 hname)
    rw [Table.lookup_put, if_neg hne]
    rfl
  rw [hsame, filterMap_take hfound, List.reverse_concat,
    List.filterMap_cons_some (f := (evaluations.lookup ·)) hfirst, hothers]

end WellFormed

end Store

namespace History

/-- What a history lists is the list that its store is. -/
theorem list_eq_kept (h : History) : h.list = h.toStore.kept := by
  have hpmap : ∀ (found : List (Option Evaluation)) (hsome : ∀ o ∈ found, o.isSome = true)
      (kept : List Evaluation), found = kept.map some → found.pmap Option.get hsome = kept := by
    rintro _ hsome kept rfl
    rw [List.pmap_map]
    simp
  exact hpmap _ _ _ h.wellFormed.shows.list

theorem shows (h : History) : h.toStore.Shows h.list := by
  rw [list_eq_kept]
  exact h.wellFormed.shows

theorem stats_eq (h : History) : h.stats = .ofList h.list :=
  Option.get_of_eq_some _ h.shows.stats?

theorem get?_eq (h : History) (name : Bytes) : h.get? name = h.list.find? (·.name = name) :=
  h.shows.get? name

theorem list_record (h : History) (source : Bytes) (r : Run) (t : Timing) :
    (h.record source r t).list = (h.next source r t :: h.list).take h.limit := by
  rw [list_eq_kept, list_eq_kept]
  exact h.wellFormed.kept_record source r t

theorem length_list_le (h : History) : h.list.length ≤ h.limit := by
  rw [list_eq_kept]
  exact h.wellFormed.length_kept_le

/-! ## Recording again and again -/

/-- What is handed over to be recorded. -/
structure Entry where
  source : Bytes
  run : Run
  timing : Timing

/-- The evaluation with this number of an entry. -/
def Entry.evaluation (e : Entry) (number : Nat) : Evaluation :=
  ⟨nameOf number, e.source, e.run.outcomes, e.run.fault.map Failure.ofFault, e.timing.created,
    e.timing.took⟩

/-- Records entries, one after the other. -/
def recordAll (h : History) (entries : List Entry) : History :=
  entries.foldl (fun h e => h.record e.source e.run e.timing) h

/-- All the evaluations that entries are recorded as, numbered from one. -/
def recorded (entries : List Entry) : List Evaluation :=
  entries.mapIdx fun i e => e.evaluation (i + 1)

/-- How many evaluations a history with this limit keeps. -/
def bound (limit : Int) : Nat := if 0 < limit then limit.toNat else 500

/-- The last `n` of a list, or all if there are not as many. -/
def latest {α : Type} (n : Nat) (l : List α) : List α := l.drop (l.length - min l.length n)

theorem recordAll_append (h : History) (front back : List Entry) :
    h.recordAll (front ++ back) = (h.recordAll front).recordAll back :=
  List.foldl_append

theorem recorded_concat (entries : List Entry) (e : Entry) :
    recorded (entries ++ [e]) = recorded entries ++ [e.evaluation (entries.length + 1)] :=
  List.mapIdx_concat

@[simp]
theorem length_recorded (entries : List Entry) : (recorded entries).length = entries.length :=
  List.length_mapIdx

theorem reverse_latest {α : Type} (n : Nat) (l : List α) :
    (latest n l).reverse = l.reverse.take n := by
  rw [latest, List.take_reverse]
  congr 2
  omega

theorem map_latest {α β : Type} (f : α → β) (n : Nat) (l : List α) :
    (latest n l).map f = latest n (l.map f) := by
  rw [latest, latest, List.map_drop, List.length_map]

/-- The latest of a list with one more in front are that one and the latest of the list. -/
theorem take_cons_take {α : Type} (n : Nat) (a : α) (l : List α) :
    (a :: l.take n).take n = (a :: l).take n := by
  cases n with
  | zero => rfl
  | succ n =>
    rw [List.take_succ_cons, List.take_succ_cons, List.take_take, Nat.min_eq_left (Nat.le_succ n)]

end History

namespace Store

open History (Entry recorded bound latest)

/-- Records entries, one after the other. -/
def recordAll (s : Store) (entries : List Entry) : Store :=
  entries.foldl (fun s e => s.record e.source e.run e.timing) s

theorem recordAll_append (s : Store) (front back : List Entry) :
    s.recordAll (front ++ back) = (s.recordAll front).recordAll back :=
  List.foldl_append

/-- Of the evaluations `all` that were ever made, oldest first, the store knows their number and the
latest ones. -/
structure Remembers (s : Store) (all : List Evaluation) : Prop where
  wellFormed : s.WellFormed
  count : s.count = all.length
  kept : s.kept = all.reverse.take s.limit

/-- A record adds the evaluation that it makes. -/
theorem Remembers.record {s : Store} {all : List Evaluation} (hs : s.Remembers all) (e : Entry) :
    (s.record e.source e.run e.timing).Remembers (all ++ [s.next e.source e.run e.timing]) where
  wellFormed := hs.wellFormed.record e.source e.run e.timing
  count := by
    show s.count + 1 = _
    rw [hs.count, List.length_append, List.length_singleton]
  kept := by
    show (s.record e.source e.run e.timing).kept = _
    rw [hs.wellFormed.kept_record, hs.kept, History.take_cons_take, List.reverse_concat]
    rfl

/-- The evaluation that a record makes carries the number behind those made before. -/
theorem Remembers.next {s : Store} {all : List Evaluation} (hs : s.Remembers all) (e : Entry) :
    s.next e.source e.run e.timing = e.evaluation (all.length + 1) := by
  rw [← hs.count]
  rfl

@[simp]
theorem limit_recordAll (s : Store) (entries : List Entry) :
    (s.recordAll entries).limit = s.limit := by
  induction entries generalizing s with
  | nil => rfl
  | cons e rest ih => exact ih _

/-- Whatever was recorded, a store remembers all of it up to its limit. -/
theorem remembers_recordAll (limit : Int) (entries : List Entry) :
    ((empty limit).recordAll entries).Remembers (recorded entries) := by
  induction entries using List.reverseRecOn with
  | nil => exact ⟨.empty limit, rfl, (List.take_nil).symm⟩
  | append_singleton entries e ih =>
    -- the last entry is recorded onto what the others left
    have hstep := ih.record e
    rw [ih.next e, History.length_recorded] at hstep
    rw [recordAll_append, History.recorded_concat]
    exact hstep

theorem limit_empty (limit : Int) : (empty limit).limit = bound limit := by
  rcases Int.lt_or_le 0 limit with hpos | hneg
  · rw [bound, if_pos hpos]
    exact if_neg (Int.not_le.2 hpos)
  · rw [bound, if_neg (Int.not_lt.2 hneg)]
    exact if_pos hneg

/-- What is kept is what was recorded last, the latest first. -/
theorem kept_recordAll (limit : Int) (entries : List Entry) :
    ((empty limit).recordAll entries).kept = (latest (bound limit) (recorded entries)).reverse := by
  have hkept := (remembers_recordAll limit entries).kept
  rw [limit_recordAll, limit_empty] at hkept
  rw [History.reverse_latest]
  exact hkept

end Store

namespace History

/-- A history is recorded on as its store is. -/
theorem toStore_recordAll (h : History) (entries : List Entry) :
    (h.recordAll entries).toStore = h.toStore.recordAll entries := by
  induction entries generalizing h with
  | nil => rfl
  | cons e rest ih => exact ih _

@[simp]
theorem limit_recordAll (h : History) (entries : List Entry) :
    (h.recordAll entries).limit = h.limit := by
  rw [toStore_recordAll, Store.limit_recordAll]

theorem limit_empty (limit : Int) : (empty limit).limit = bound limit := Store.limit_empty limit

theorem remembers_recordAll (limit : Int) (entries : List Entry) :
    ((empty limit).recordAll entries).toStore.Remembers (recorded entries) := by
  rw [toStore_recordAll]
  exact Store.remembers_recordAll limit entries

theorem list_recordAll (limit : Int) (entries : List Entry) :
    ((empty limit).recordAll entries).list = (latest (bound limit) (recorded entries)).reverse := by
  rw [list_eq_kept, toStore_recordAll]
  exact Store.kept_recordAll limit entries

/-- The evaluation that was made from an entry is the one recorded at its place. -/
theorem getElem?_recorded {entries : List Entry} {i : Nat} {e : Entry} (h : entries[i]? = some e) :
    (recorded entries)[i]? = some (e.evaluation (i + 1)) := by
  rw [recorded, List.getElem?_mapIdx, h]
  rfl

/-! ## Names -/

theorem nodup_names (entries : List Entry) : ((recorded entries).map (·.name)).Nodup := by
  have hnames : (recorded entries).map (·.name)
      = (List.range entries.length).map fun i => nameOf (i + 1) := by
    apply List.ext_getElem?
    intro i
    cases hi : entries[i]? with
    | none =>
      have hlen := List.getElem?_eq_none_iff.1 hi
      simp [hlen]
    | some e =>
      obtain ⟨hlt, -⟩ := List.getElem?_eq_some_iff.1 hi
      rw [List.getElem?_map, getElem?_recorded hi, List.getElem?_map, List.getElem?_range hlt]
      rfl
  rw [hnames]
  apply List.Nodup.map_on ?_ List.nodup_range
  intro i _ j _ hij
  exact Nat.succ.inj (nameOf_injective hij)

/-! ## Counts -/

theorem Entry.state_evaluation (e : Entry) (number : Nat) :
    (e.evaluation number).state = .failed ↔ e.run.fault.isSome = true := by
  cases hfault : e.run.fault <;> simp [Evaluation.state, Entry.evaluation, hfault]

theorem map_failed_recorded (entries : List Entry) :
    (recorded entries).map (fun e => decide (e.state = .failed))
      = entries.map (·.run.fault.isSome) := by
  apply List.ext_getElem?
  intro i
  rw [recorded, List.getElem?_map, List.getElem?_map, List.getElem?_mapIdx, Option.map_map]
  congr 1
  funext e
  rw [Function.comp_apply, Bool.eq_iff_iff, decide_eq_true_iff]
  exact e.state_evaluation (i + 1)

/-- The failed ones of the latest evaluations are as many as the faults of the latest entries. -/
theorem countP_failed_recorded (n : Nat) (entries : List Entry) :
    (latest n (recorded entries)).countP (·.state = .failed)
      = (latest n entries).countP (·.run.fault.isSome) := by
  calc (latest n (recorded entries)).countP (·.state = .failed)
      = ((latest n (recorded entries)).map fun e => decide (e.state = .failed)).countP id := by
        rw [List.countP_map]
        rfl
    _ = ((latest n entries).map (·.run.fault.isSome)).countP id := by
        rw [map_latest, map_failed_recorded, map_latest]
    _ = (latest n entries).countP (·.run.fault.isSome) := by
        rw [List.countP_map]
        rfl

end History

namespace Store

open History (Entry recorded bound latest nameOf)

theorem get_eq_ok_iff {s : Store} {name : Bytes} {e : Evaluation} :
    s.get name = .ok e ↔ s.get? name = some e := by
  unfold get
  cases s.get? name <;> simp

theorem next_recordAll_take (limit : Int) {entries : List Entry} {i : Nat} {e : Entry}
    (h : entries[i]? = some e) :
    ((empty limit).recordAll (entries.take i)).next e.source e.run e.timing
      = e.evaluation (i + 1) := by
  obtain ⟨hi, -⟩ := List.getElem?_eq_some_iff.1 h
  rw [(remembers_recordAll limit (entries.take i)).next e, History.length_recorded,
    List.length_take_of_le (Nat.le_of_lt hi)]

/-- **A store is the list of all that was recorded, cut to its latest.** After any entries, table,
order and counter go together. What is listed are the latest evaluations up to the limit, the newest
first, and none is missing from the table. A name finds an evaluation just if it is the name of one
of these, and finds that one. The counts can be had, they are those of the list, and the failed ones
are those that were recorded with a fault. Every evaluation is the one that its record made, with
what was handed over and the number of the record in at least six digits for a name; and no two
evaluations have one name. -/
theorem recordAll_keeps_latest (limit : Int) (entries : List Entry) :
    let s := (empty limit).recordAll entries
    let all := recorded entries
    s.WellFormed ∧
    s.list = (latest (bound limit) all).reverse.map some ∧
    (∀ name e, s.get name = .ok e ↔ e ∈ latest (bound limit) all ∧ e.name = name) ∧
    (∃ stats, s.stats? = some stats ∧ stats.total = s.list.length ∧
      stats.failed = (latest (bound limit) entries).countP (·.run.fault.isSome) ∧
      stats.succeeded + stats.failed = stats.total) ∧
    all.length = entries.length ∧
    (∀ i e, entries[i]? = some e →
      all[i]? = some (((empty limit).recordAll (entries.take i)).next e.source e.run e.timing) ∧
      ∃ digits, Number.Padded 6 (i + 1) digits ∧
        all[i]? = some ⟨utf8 "eval-" ++ digits, e.source, e.run.outcomes,
          e.run.fault.map Failure.ofFault, e.timing.created, e.timing.took⟩) ∧
    (all.map (·.name)).Nodup := by
  intro s all
  have hwell : s.WellFormed := (remembers_recordAll limit entries).wellFormed
  have hkept : s.kept = (latest (bound limit) all).reverse := kept_recordAll limit entries
  have hshows := hwell.shows
  rw [hkept] at hshows
  refine ⟨hwell, hshows.list, fun name e => ?_, ⟨_, hshows.stats?, ?_, ?_, ?_⟩,
    History.length_recorded entries,
    fun i e he => ⟨?_, _, Number.padded_padLeft 6 (Nat.succ_pos i), ?_⟩,
    History.nodup_names entries⟩
  · rw [get_eq_ok_iff, hwell.get?_eq_some_iff, hkept, List.mem_reverse]
  · rw [hshows.list, List.length_map]
    rfl
  · show List.countP _ _ = _
    rw [List.countP_reverse]
    exact History.countP_failed_recorded _ entries
  · exact Stats.succeeded_add_failed _
  · rw [next_recordAll_take limit he]
    exact History.getElem?_recorded he
  · exact History.getElem?_recorded he

/-- Of two entries, a store of one evaluation keeps the second, which has a fault. -/
theorem recordAll_keeps_latest_second :
    let timing : History.Timing := ⟨.zero, ⟨0⟩⟩
    let first : Entry := ⟨utf8 "nil", ⟨[⟨utf8 "nil", .nil⟩], none⟩, timing⟩
    let second : Entry := ⟨utf8 "-nil", ⟨[], some (.interrupted .canceled)⟩, timing⟩
    let s := (empty 1).recordAll [first, second]
    s.list = [some (second.evaluation 2)] ∧ s.stats?.map Stats.failed = some 1 ∧
    s.get (nameOf 2) = .ok (second.evaluation 2) ∧ (∀ e, s.get (nameOf 1) ≠ .ok e) ∧
    ([first, second][1]? = some second ∧
      ∃ digits, Number.Padded 6 2 digits ∧ (second.evaluation 2).name = utf8 "eval-" ++ digits) := by
  intro timing first second s
  obtain ⟨-, hlist, hget, ⟨stats, hstats, -, hfailed, -⟩, -, hmade, -⟩ :=
    recordAll_keeps_latest 1 [first, second]
  have hlatest : latest (bound 1) (recorded [first, second]) = [second.evaluation 2] := rfl
  rw [hlatest] at hlist hget
  obtain ⟨-, digits, hdigits, hsecond⟩ := hmade 1 second rfl
  have hfound := (hget (nameOf 2) _).2 ⟨List.mem_singleton_self _, rfl⟩
  refine ⟨hlist, ?_, hfound, ?_, rfl, digits, hdigits, ?_⟩
  · rw [hstats, Option.map_some, hfailed]
    rfl
  · intro e he
    obtain ⟨hmem, hname⟩ := (hget _ _).1 he
    rw [List.mem_singleton.1 hmem] at hname
    exact absurd (History.nameOf_injective hname) (by decide)
  · exact congrArg Evaluation.name (Option.some.inj hsecond)

end Store

end Reckoner
