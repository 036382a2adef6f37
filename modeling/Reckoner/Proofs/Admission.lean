import Reckoner.Proofs.Excerpts
import Reckoner.Proofs.Fronts

/-!
# Reckoner.Proofs.Admission — which sources fit into a request

Two limits stand between a caller and the interpreter: one on the body of a request, where the
source is a JSON string, and one on the source once it is read. The first is wide enough for the
second. A character of a string takes at most six bytes for each byte that it stands for
(`exists_front_of_stringStep`), so a string is at most six times as long as its contents
(`Contents.length_le`), and replacing stray bytes makes a text no shorter (`length_le_mended`).

Where a string ends does not depend on what stands behind it: no escape goes on past a quote
(`stringStep_before_quote`). So a text between quotes is read alike on its own and in a body
(`Contents.stringOnto_eq`).

Main statement: `sources_fit`.
-/

namespace Reckoner

namespace Utf8

/-- Replacing stray bytes makes a text no shorter. -/
theorem Decodes.length_le {s : Bytes} {rs : List Rune} (h : Decodes s rs) :
    s.length ≤ (encodeAll (rs.map Rune.char)).length := by
  induction h with
  | nil => exact Nat.le_refl _
  | @scalar c text rest more form _ ih =>
    show _ ≤ (encode c ++ encodeAll (more.map Rune.char)).length
    rw [form.encode_eq, List.length_append, List.length_append]
    omega
  | @stray b rest more _ _ ih =>
    have hone := one_le_length_encode Rune.replacement
    show _ ≤ (encode Rune.replacement ++ encodeAll (more.map Rune.char)).length
    rw [List.length_cons, List.length_append]
    omega

end Utf8

namespace Json

theorem length_le_mended (s : Bytes) : s.length ≤ (mended s).length :=
  (Utf8.decodes_runes s).length_le

/-! ## Where a string ends -/

/-- `Contents text raw`: between quotes the text stands for these bytes. -/
inductive Contents : Bytes → Bytes → Prop
  | nil : Contents [] []
  | step {b : UInt8} {rest piece more raw : Bytes} (unquoted : b ≠ Bytes.quoteMark)
      (first : stringStep b rest = some (piece, more)) (behind : Contents more raw) :
      Contents (b :: rest) (piece ++ raw)

theorem unitAt?_eq_some_iff {s more : Bytes} {n : Nat} :
    unitAt? s = some (n, more) ↔
      ∃ w x y z, s = [92, byte 'u', w, x, y, z] ++ more ∧ unit? w x y z = some n := by
  constructor
  · intro h
    unfold unitAt? at h
    split at h
    · next escape u w x y z rest =>
      split at h
      · next hstart =>
        simp only [Bool.and_eq_true, decide_eq_true_eq] at hstart
        obtain ⟨rfl, rfl⟩ := hstart
        obtain ⟨m, hm, ⟨⟩⟩ := Option.map_eq_some_iff.1 h
        exact ⟨w, x, y, z, rfl, hm⟩
      · cases h
    · cases h
  · rintro ⟨w, x, y, z, rfl, hunit⟩
    exact unitAt?_of_unit hunit more

/-- A quote is no hexadecimal digit. -/
theorem quote_notMem_of_unit? {w x y z : UInt8} {n : Nat} (h : unit? w x y z = some n) :
    Bytes.quoteMark ∉ [w, x, y, z] := by
  have hdigit : hexDigit? Bytes.quoteMark = none := rfl
  intro hmem
  simp only [List.mem_cons, List.not_mem_nil, or_false] at hmem
  unfold unit? at h
  rcases hmem with rfl | rfl | rfl | rfl
  · simp [hdigit] at h
  · cases hw : hexDigit? w <;> simp [hdigit, hw] at h
  · cases hw : hexDigit? w <;> cases hx : hexDigit? x <;> simp [hdigit, hw, hx] at h
  · cases hw : hexDigit? w <;> cases hx : hexDigit? x <;> cases hy : hexDigit? y <;>
      simp [hdigit, hw, hx, hy] at h

/-- A numeric escape does not go on past a quote. -/
theorem unitAt?_before_quote (s rest : Bytes) :
    unitAt? (s ++ Bytes.quoteMark :: rest)
      = (unitAt? s).map fun found => (found.1, found.2 ++ Bytes.quoteMark :: rest) := by
  cases hs : unitAt? s with
  | some found =>
    obtain ⟨n, more⟩ := found
    obtain ⟨w, x, y, z, rfl, hunit⟩ := unitAt?_eq_some_iff.1 hs
    exact unitAt?_of_unit hunit _
  | none =>
    rw [Option.map_none, Option.eq_none_iff_forall_ne_some]
    rintro ⟨n, left⟩ h
    obtain ⟨w, x, y, z, hsplit, hunit⟩ := unitAt?_eq_some_iff.1 h
    have hquote := quote_notMem_of_unit? hunit
    rcases List.append_eq_append_iff.1 hsplit with ⟨beyond, hbeyond, hleft⟩ | ⟨more, rfl, -⟩
    · rcases beyond with _ | ⟨b, beyond⟩
      · rw [List.append_nil] at hbeyond
        cases hs.symm.trans (hbeyond ▸ unitAt?_of_unit hunit [])
      · -- the escape would go on past the end of `s`, and so have the quote in it
        obtain ⟨rfl, -⟩ := List.cons.inj hleft
        have hmem : Bytes.quoteMark ∈ [92, byte 'u', w, x, y, z] := by simp [hbeyond]
        rcases List.mem_cons.1 hmem with heq | hmem
        · exact absurd heq (by decide)
        rcases List.mem_cons.1 hmem with heq | hmem
        · exact absurd heq (by decide)
        exact hquote hmem
    · cases hs.symm.trans (unitAt?_of_unit hunit more)

/-- No character of a string goes on past a quote that is not escaped. -/
theorem stringStep_before_quote {b : UInt8} {s : Bytes} (h : b = 92 → s ≠ []) (rest : Bytes) :
    stringStep b (s ++ Bytes.quoteMark :: rest)
      = (stringStep b s).map fun found => (found.1, found.2 ++ Bytes.quoteMark :: rest) := by
  unfold stringStep
  by_cases hb : b = 92
  · -- a numeric escape, perhaps with a second one that makes a pair with it, or a short one
    rw [if_pos hb, if_pos hb, ← List.cons_append, unitAt?_before_quote]
    cases unitAt? (b :: s) with
    | some found =>
      obtain ⟨u, more⟩ := found
      simp only [Option.map_some]
      rw [unitAt?_before_quote]
      cases unitAt? more with
      | some found =>
        simp only [Option.map_some]
        split <;> rw [Option.map_some]
      | none => rw [Option.map_none, Option.map_some]
    | none =>
      obtain ⟨e, more, rfl⟩ := List.exists_cons_of_ne_nil (h hb)
      simp only [Option.map_none, List.cons_append, Option.map_map]
      rfl
  · rw [if_neg hb, if_neg hb]
    split <;> rfl

/-- What a character of a string takes: some bytes in front of the rest, and at most six for each
byte that it stands for. -/
theorem exists_front_of_stringStep {b : UInt8} {rest piece more : Bytes}
    (h : stringStep b rest = some (piece, more)) :
    ∃ front, rest = front ++ more ∧ (b = 92 → front ≠ []) ∧
      front.length + 1 ≤ 6 * piece.length := by
  unfold stringStep at h
  split at h
  · next hb =>
    split at h
    · next u first hu =>
      obtain ⟨w, x, y, z, hrest, -⟩ := unitAt?_eq_some_iff.1 hu
      obtain ⟨-, rfl⟩ := List.cons.inj hrest
      have halone : ∀ c : Char, some (Utf8.encode c, first) = some (piece, more) →
          ∃ front, [byte 'u', w, x, y, z] ++ first = front ++ more ∧ (b = 92 → front ≠ []) ∧
            front.length + 1 ≤ 6 * piece.length := by
        rintro c ⟨⟩
        have hone := Utf8.one_le_length_encode c
        refine ⟨[byte 'u', w, x, y, z], rfl, by simp, ?_⟩
        simp only [List.length_cons, List.length_nil]
        omega
      split at h
      · next v further hv =>
        obtain ⟨w', x', y', z', rfl, -⟩ := unitAt?_eq_some_iff.1 hv
        split at h
        · next hpair =>
          rw [Bool.and_eq_true] at hpair
          have hge := le_toNat_pairedUnits hpair.1 hpair.2
          have htwo := Utf8.two_le_length_encode (Nat.le_trans (by decide) hge)
          obtain ⟨rfl, rfl⟩ := Prod.mk.inj (Option.some.inj h)
          exact ⟨[byte 'u', w, x, y, z] ++ [92, byte 'u', w', x', y', z'], by simp, by simp, by
            simp only [List.length_append, List.length_cons, List.length_nil]; omega⟩
        · exact halone _ h
      · exact halone _ h
    · split at h
      · cases h
      · next e left _ =>
        obtain ⟨c, -, ⟨⟩⟩ := Option.map_eq_some_iff.1 h
        exact ⟨[e], rfl, by simp, by simp⟩
  · next hb =>
    split at h
    · cases h
    · cases h
      exact ⟨[], rfl, fun heq => absurd heq hb, by simp⟩

/-- **A string is at most six times as long as its contents.** -/
theorem Contents.length_le {text raw : Bytes} (h : Contents text raw) :
    text.length ≤ 6 * raw.length := by
  induction h with
  | nil => exact Nat.le_refl _
  | @step b rest piece more raw _ first _ ih =>
    obtain ⟨front, rfl, -, hfront⟩ := exists_front_of_stringStep first
    rw [List.length_cons, List.length_append, List.length_append]
    omega

/-- **What stands between two quotes is read, whatever follows.** -/
theorem Contents.stringOnto_eq {text raw : Bytes} (h : Contents text raw) (done rest : Bytes) :
    stringOnto done (text ++ Bytes.quoteMark :: rest) = some (done.reverse ++ raw, rest) := by
  induction h generalizing done with
  | nil => rw [List.nil_append, stringOnto_quote, List.append_nil]
  | @step b left piece more raw unquoted first _ ih =>
    have hne : b = 92 → left ≠ [] := by
      rintro rfl rfl
      cases first
    have hstep := stringStep_before_quote hne rest
    rw [first, Option.map_some] at hstep
    rw [List.cons_append, stringOnto_step unquoted hstep, ih]
    simp

/-- What is read as a string stands between two quotes. -/
theorem exists_contents_of_stringOnto {done s t rest : Bytes}
    (h : stringOnto done s = some (t, rest)) :
    ∃ text raw, s = text ++ Bytes.quoteMark :: rest ∧ t = done.reverse ++ raw ∧
      Contents text raw := by
  fun_induction stringOnto done s with
  | case1 => cases h
  | case2 done left =>
    cases h
    exact ⟨[], [], rfl, (List.append_nil _).symm, .nil⟩
  | case3 => cases h
  | case4 done b left hb piece more first ih =>
    obtain ⟨text, raw, rfl, rfl, hcontents⟩ := ih h
    obtain ⟨front, rfl, hescape, -⟩ := exists_front_of_stringStep first
    have hne : b = 92 → front ++ text ≠ [] := fun heq hnil =>
      hescape heq (List.append_eq_nil_iff.1 hnil).1
    have hstep := stringStep_before_quote hne rest
    rw [List.append_assoc, first] at hstep
    obtain ⟨⟨piece', text'⟩, hfirst, heq⟩ := Option.map_eq_some_iff.1 hstep.symm
    obtain ⟨rfl, htext⟩ := Prod.mk.inj heq
    obtain rfl := List.append_cancel_right htext
    exact ⟨b :: (front ++ text'), piece' ++ raw, by simp, by simp, .step hb hfirst hcontents⟩

/-! ## Strings as values -/

/-- The marks that are found stand behind those that were there, and only blanks have none. -/
theorem exists_marks {done marks : List Mark} {s : Bytes} (h : marksOnto done s = some marks) :
    ∃ more, marks = done.reverse ++ more ∧ (more = [] → ∀ b ∈ s, isSpace b = true) := by
  fun_induction marksOnto done s with
  | case1 done =>
    cases h
    exact ⟨[], (List.append_nil _).symm, fun _ b hb => absurd hb List.not_mem_nil⟩
  | case2 done b rest hb ih =>
    obtain ⟨more, rfl, hspaces⟩ := ih h
    exact ⟨more, rfl, fun hnil => List.forall_mem_cons.2 ⟨hb, hspaces hnil⟩⟩
  | case3 => cases h
  | case4 done b rest hb m left hmark ih =>
    obtain ⟨more, rfl, -⟩ := ih h
    refine ⟨m :: more, by simp, fun hnil => ?_⟩
    cases hnil

theorem exists_of_marksOnto_cons {done marks : List Mark} {b : UInt8} {rest : Bytes}
    (hb : isSpace b = false) (h : marksOnto done (b :: rest) = some marks) :
    ∃ m more, mark? b rest = some (m, more) ∧ marksOnto (m :: done) more = some marks := by
  rw [marksOnto, if_neg (by simp [hb])] at h
  split at h
  · cases h
  · next m more hmark => exact ⟨m, more, hmark, h⟩

/-- A quote starts a string and nothing else. -/
theorem exists_of_mark?_quote {rest more : Bytes} {m : Mark}
    (h : mark? Bytes.quoteMark rest = some (m, more)) :
    ∃ raw, stringOnto [] rest = some (raw, more) ∧ m = .leaf (.string (mended raw)) := by
  have hnone : punctuation? Bytes.quoteMark = none := rfl
  rw [mark?, hnone] at h
  simp only [if_true] at h
  obtain ⟨⟨raw, left⟩, hstring, heq⟩ := Option.map_eq_some_iff.1 h
  obtain ⟨rfl, rfl⟩ := Prod.mk.inj heq
  exact ⟨raw, hstring, rfl⟩

/-- Nothing can stand behind a value that is not inside another. -/
theorem run_after_value {j result : Json} {marks : List Mark}
    (h : Build.start.run 0 (.leaf j :: marks) = some result) : marks = [] ∧ j = result := by
  cases marks with
  | nil =>
    cases h
    exact ⟨rfl, rfl⟩
  | cons m marks =>
    have hstep : Build.step ⟨[], .after, some j⟩ 0 m = none := by cases m <;> rfl
    have hfirst : Build.start.step 0 (.leaf j) = some (⟨[], .after, some j⟩, 0) := rfl
    simp only [Build.run, hfirst, hstep] at h
    cases h

/-- `Denotes text source`: between quotes the text is JSON for this string. -/
def Denotes (text source : Bytes) : Prop :=
  read (Bytes.quoteMark :: (text ++ [Bytes.quoteMark])) = some (.string source)

/-- **A quoted text is a string just if it has contents.** -/
theorem denotes_iff {text source : Bytes} :
    Denotes text source ↔ ∃ raw, Contents text raw ∧ mended raw = source := by
  constructor
  · intro h
    obtain ⟨marks, hmarks, hrun⟩ := Option.bind_eq_some_iff.1 h
    obtain ⟨m, rest, hmark, hbehind⟩ := exists_of_marksOnto_cons rfl hmarks
    obtain ⟨raw, hstring, rfl⟩ := exists_of_mark?_quote hmark
    obtain ⟨more, rfl, hspaces⟩ := exists_marks hbehind
    obtain ⟨hmore, hvalue⟩ := run_after_value hrun
    obtain ⟨text', contents, hsplit, hraw, hcontents⟩ := exists_contents_of_stringOnto hstring
    obtain rfl : raw = contents := hraw
    -- only blanks may stand behind the string, but the last byte is a quote
    have hnil : rest = [] := by
      rcases List.eq_nil_or_concat rest with hnil | ⟨init, last, hlast⟩
      · exact hnil
      · have hends : text ++ [Bytes.quoteMark] = (text' ++ Bytes.quoteMark :: init) ++ [last] := by
          simp [hsplit, hlast]
        obtain ⟨rfl, -⟩ := List.cons.inj (List.append_inj' hends rfl).2
        have hspace := hspaces hmore Bytes.quoteMark (by simp [hlast])
        cases hspace
    subst hnil
    obtain rfl := List.append_cancel_right hsplit
    exact ⟨raw, hcontents, Json.string.inj hvalue⟩
  · rintro ⟨raw, hcontents, rfl⟩
    have hmarks : marksOnto [] (Bytes.quoteMark :: (text ++ [Bytes.quoteMark]))
        = some [.leaf (.string (mended raw))] := by
      rw [marksOnto_mark rfl (mark?_string (hcontents.stringOnto_eq [] [])), marksOnto]
      rfl
    rw [Denotes, read, hmarks]
    rfl

/-- Every mix of spellings is JSON for its characters. -/
theorem denotes_of_spells {cs : List Char} {pieces : List Bytes}
    (h : List.Forall₂ Spells cs pieces) : Denotes pieces.flatten (Utf8.encodeAll cs) := by
  obtain ⟨text, raw, hsplit, hraw, hcontents⟩ :=
    exists_contents_of_stringOnto (stringOnto_spells h [] [])
  obtain rfl := List.append_cancel_right hsplit
  obtain rfl : Utf8.encodeAll cs = raw := hraw
  exact denotes_iff.2 ⟨_, hcontents, Utf8.encodeAll_chars (Utf8.valid_encodeAll cs)⟩

end Json

namespace Api

open Http
open Json (Spells Denotes)

/-! ## Bodies within the limit -/

/-- **A body is read as the string in it**, and is short enough if the string is. -/
theorem bodyOf_fits {text source : Bytes} (h : Denotes text source) :
    Json.read (bodyOf text) = some (.object [(utf8 "source", .string source)]) ∧
      (source.length ≤ maxSourceSize → (bodyOf text).length ≤ maxBodySize) := by
  obtain ⟨raw, hcontents, rfl⟩ := Json.denotes_iff.1 h
  refine ⟨read_bodyOf (hcontents.stringOnto_eq [] _), fun hsize => ?_⟩
  have htext : text.length ≤ 6 * (Json.mended raw).length :=
    Nat.le_trans hcontents.length_le (Nat.mul_le_mul_left 6 (Json.length_le_mended raw))
  exact length_bodyOf_le htext hsize

/-! ## Sources beyond the limit -/

/-- The paths that a source is posted to. -/
def sourcePaths : List Bytes := [utf8 "/v1/evaluate", utf8 "/v1/parse", utf8 "/v1/tokens"]

/-- The request posts a source, to be evaluated, parsed or cut into tokens. -/
structure Posts (decode : Decoder) (r : Request) (source : Bytes) : Prop where
  method : r.method = utf8 "POST"
  path : comparable (pathOf r.target) ∈ sourcePaths
  source : decode r = .ok source

variable {decode : Decoder}

theorem exists_refusal_of_long {r : Request} {source : Bytes} (h : decode r = .ok source)
    (hsize : maxSourceSize < source.length) :
    ∃ message, readSource decode r = .error (refusal message) := by
  simp only [readSource, h, if_pos hsize]
  exact ⟨_, rfl⟩

/-- A request whose source is refused is answered with the refusal and changes nothing. -/
theorem Posts.dispatch_eq {r : Request} {source : Bytes} {response : Response}
    (hr : Posts decode r source) (hread : readSource decode r = .error response)
    (t : History.Timing) (patience : Patience) (more : List (Route History)) (h : History) :
    dispatch (routes decode t patience ++ more) r h = (response, h) := by
  have hhead : r.method ≠ utf8 "HEAD" := by
    rw [hr.method]
    decide
  have hpath := hr.path
  simp only [sourcePaths, List.mem_cons, List.not_mem_nil, or_false] at hpath
  rcases hpath with hpath | hpath | hpath
  · have hfind := find?_evaluate decode hr.method hpath t patience more
    simp only [dispatch, hfind, if_neg hhead, evaluate, hread]
  · have hfind : find? r.method (pathOf r.target) (routes decode t patience ++ more)
        = some (⟨"POST", .exactly "/v1/parse", fun _ r h => (parse decode r, h)⟩, []) := by
      have hfirst : utf8 "/v1/parse" ≠ utf8 "/v1/evaluate" := by decide
      simp only [routes, List.cons_append, find?, Pattern.match?, hpath, if_true, if_neg hfirst,
        Route.answers, hr.method, decide_true, Bool.true_or]
    simp only [dispatch, hfind, if_neg hhead, parse, hread]
  · have hfind : find? r.method (pathOf r.target) (routes decode t patience ++ more)
        = some (⟨"POST", .exactly "/v1/tokens", fun _ r h => (tokens decode r, h)⟩, []) := by
      have hfirst : utf8 "/v1/tokens" ≠ utf8 "/v1/evaluate" := by decide
      have hsecond : utf8 "/v1/tokens" ≠ utf8 "/v1/parse" := by decide
      simp only [routes, List.cons_append, find?, Pattern.match?, hpath, if_true, if_neg hfirst,
        if_neg hsecond, Route.answers, hr.method, decide_true, Bool.true_or]
    simp only [dispatch, hfind, if_neg hhead, tokens, hread]

/-- **A source that is too long is refused**, whatever it is sent in, and nothing is recorded. -/
theorem Posts.serve_long {r : Request} {source : Bytes} (hr : Posts decode r source)
    (hsize : maxSourceSize < source.length) (t : History.Timing) (patience : Patience)
    (more : List (Route History)) (h : History) :
    (serve (routes decode t patience ++ more) r h).1.status = 400 ∧
      (serve (routes decode t patience ++ more) r h).2 = h := by
  unfold serve
  split
  · exact ⟨rfl, rfl⟩
  · obtain ⟨message, hread⟩ := exists_refusal_of_long hr.source hsize
    rw [hr.dispatch_eq hread]
    exact ⟨rfl, rfl⟩

/-- **Every source that is short enough fits into a request, and no other is taken**, as long as
JSON is read as JSON. If a text between quotes is JSON for a source that is short enough, the body
with that text as its only member is not too long, and is read as the source. Each character of a
valid source may be spelled as it is, by a short escape, by a numeric escape or by a pair of them:
any mix of spellings is such a text. A source that is too long is answered with status 400, whatever
body it is posted in and whatever else there is to it, and the history stays as it was. -/
theorem sources_fit (hjson : ReadsJson decode) :
    (∀ text source, Denotes text source → source.length ≤ maxSourceSize →
      (bodyOf text).length ≤ maxBodySize ∧
      ∀ r : Request, isJson r = true → r.body = bodyOf text → readSource decode r = .ok source) ∧
    (∀ source pieces, Utf8.valid source = true →
      List.Forall₂ Spells (Utf8.chars source) pieces → Denotes pieces.flatten source) ∧
    (∀ (r : Request) source, Posts decode r source → maxSourceSize < source.length →
      ∀ (t : History.Timing) (patience : Patience) (more : List (Route History)) (h : History),
        (serve (routes decode t patience ++ more) r h).1.status = 400 ∧
        (serve (routes decode t patience ++ more) r h).2 = h) := by
  refine ⟨?_, ?_, ?_⟩
  · intro text source hdenotes hsize
    obtain ⟨hread, hfits⟩ := bodyOf_fits hdenotes
    refine ⟨hfits hsize, fun r hr hbody => ?_⟩
    apply readSource_of_fits _ hsize
    rw [hjson r hr, hbody]
    exact jsonSource?_of_read hread
  · intro source pieces hvalid hspells
    have hdenotes := Json.denotes_of_spells hspells
    rwa [Utf8.encodeAll_chars hvalid] at hdenotes
  · intro r source hr hsize t patience more h
    exact hr.serve_long hsize t patience more h

/-- The longest source of letters, with every letter escaped by six bytes, is read. One letter more
gets past the limit on bodies and is refused. -/
theorem sources_fit_escaped :
    let letters := fun n => List.replicate n (65 : UInt8)
    let post := fun n => Request.mk (utf8 "POST") (utf8 "/v1/evaluate") (utf8 "application/json")
      [] (bodyOf (List.replicate n (utf8 "\\u0041")).flatten)
    ReadsJson jsonOnly ∧
      (post maxSourceSize).body.length = 6 * (letters maxSourceSize).length + 13 ∧
      readSource jsonOnly (post maxSourceSize) = .ok (letters maxSourceSize) ∧
      (post (maxSourceSize + 1)).body.length ≤ maxBodySize ∧
      (serve (routes jsonOnly ⟨.zero, ⟨0⟩⟩) (post (maxSourceSize + 1)) (.empty 0)).1.status
        = 400 := by
  intro letters post
  have hjson := readsJson_jsonOnly
  obtain ⟨hfits, hspelled, hlong⟩ := sources_fit hjson
  have hspells : Spells 'A' (utf8 "\\u0041") :=
    .unit (w := 48) (x := 48) (y := 52) (z := 49) (n := 65) (by decide) (by decide)
  have hletters : ∀ n, letters n = Utf8.encodeAll (List.replicate n 'A') := by
    intro n
    show List.replicate n 65 = (List.replicate n 'A').flatMap Utf8.encode
    induction n with
    | zero => rfl
    | succ n ih =>
      rw [List.replicate_succ, List.replicate_succ, List.flatMap_cons, ← ih]
      rfl
  have hdenotes : ∀ n, Denotes (List.replicate n (utf8 "\\u0041")).flatten (letters n) := by
    intro n
    apply hspelled
    · rw [hletters]
      exact Utf8.valid_encodeAll _
    · rw [hletters, Utf8.chars_encodeAll]
      induction n with
      | zero => exact .nil
      | succ n ih => exact .cons hspells ih
  have hcount : ∀ n, (letters n).length = n := fun n => List.length_replicate
  have hlength : ∀ n, (post n).body.length = 6 * n + 13 := by
    intro n
    have hpiece : (utf8 "\\u0041").length = 6 := by decide
    show (bodyOf _).length = _
    rw [length_bodyOf, List.length_flatten, List.map_replicate, List.sum_replicate_nat, hpiece]
    omega
  have htype : isJsonType (utf8 "application/json") = true := by decide
  have hpath : comparable (pathOf (utf8 "/v1/evaluate")) ∈ sourcePaths := by decide
  have hpost : ∀ n, isJson (post n) = true := fun n => by rw [isJson, htype]; rfl
  have hposts : Posts jsonOnly (post (maxSourceSize + 1)) (letters (maxSourceSize + 1)) :=
    ⟨rfl, hpath, (hjson _ (hpost _) _).2 (jsonSource?_of_read (bodyOf_fits (hdenotes _)).1)⟩
  refine ⟨hjson, ?_, ?_, ?_, ?_⟩
  · rw [hlength, hcount]
  · exact (hfits _ _ (hdenotes _) (Nat.le_of_eq (hcount _))).2 _ (hpost _) rfl
  · rw [hlength]
    unfold maxBodySize
    omega
  · have hrefused := hlong _ _ hposts (by rw [hcount]; omega) ⟨.zero, ⟨0⟩⟩ .endless [] (.empty 0)
    rw [List.append_nil] at hrefused
    exact hrefused.1

end Api

end Reckoner
