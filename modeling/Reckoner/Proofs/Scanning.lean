import Mathlib.Logic.Relation
import Reckoner.Proofs.Munch

/-!
# Reckoner.Proofs.Scanning — whole sources

A source is scanned by taking the longest match off its front again and again. `Step` is one such
cut, said without the scanner, and `Reached` the places of a source that cuts lead to.
`scan_maximal_munch` says that the scanner follows them: it answers with the tokens met on the way
when the end of the source is reached, and with a diagnostic when a place is reached where nothing
matches.

A cut is a turn of the scanner's loop (`scanAt_step`), so the scanner may be resumed at every
place that is reached (`scan_of_reached`). Cuts are unique (`Step.unique`) and use up the source, so
they lead to one last place (`exists_last`), and there the scanner stops. A scanner that is called
again answers as it did before (`Scanner.answers_new`).
-/

namespace Reckoner.Token

open Lexeme

/-- The line that follows this part of a source: one more than there are newlines in it. -/
def lineAfter (before : Bytes) : Nat := 1 + Bytes.newlines before

theorem lineAfter_append (before text : Bytes) :
    lineAfter (before ++ text) = lineAfter before + Bytes.newlines text := by
  unfold lineAfter
  rw [Bytes.newlines_append, Nat.add_assoc]

/-- The token of a match on this line, if the match gives one. -/
def ofMatch (line : Nat) (text : Bytes) (token? : Option (TokenKind × Value)) : List Token :=
  match token? with
  | some (kind, literal) => [⟨kind, text, literal, line⟩]
  | none => []

/-- A place between two lexemes of a source, with the tokens in front of it. -/
structure Place where
  before : Bytes
  tokens : List Token
  rest : Bytes

/-- One cut: the longest match is taken off the rest, and its token is noted. -/
inductive Step : Place → Place → Prop
  | cut {before text rest : Bytes} {tokens : List Token} {token? : Option (TokenKind × Value)}
      (longest : LongestMatch (text ++ rest) text token?) :
      Step ⟨before, tokens, text ++ rest⟩
        ⟨before ++ text, tokens ++ ofMatch (lineAfter before) text token?, rest⟩

/-- The places that cuts lead to from the front of a source. -/
def Reached (source : Bytes) (place : Place) : Prop :=
  Relation.ReflTransGen Step ⟨[], [], source⟩ place

/-- A place is a way to divide the source. -/
theorem Reached.append_eq {source : Bytes} {place : Place} (h : Reached source place) :
    place.before ++ place.rest = source := by
  induction h with
  | refl => rfl
  | tail h step ih =>
    cases step with
    | cut longest =>
      rw [List.append_assoc]
      exact ih

/-! ### One cut and one turn of the loop -/

/-- A cut starts at some byte, and takes off what `next` takes off there. -/
theorem Step.exists_next {p q : Place} (h : Step p q) :
    ∃ b rest lexeme, p.rest = b :: rest ∧ next b rest = .ok (lexeme, q.rest) ∧
      q.before = p.before ++ lexeme.text ∧
      q.tokens = p.tokens ++ ofMatch (lineAfter p.before) lexeme.text lexeme.token? := by
  cases h with
  | @cut before text rest tokens token? longest =>
    rcases text with _ | ⟨b, text⟩
    · exact absurd rfl longest.1.ne_nil
    · exact ⟨b, text ++ rest, ⟨b :: text, token?⟩, rfl, next_eq_ok_iff.2 ⟨longest, rfl⟩, rfl, rfl⟩

/-- What `next` takes off is a cut. -/
theorem step_of_next {b : UInt8} {before rest more : Bytes} {tokens : List Token} {lexeme : Lexeme}
    (h : next b rest = .ok (lexeme, more)) :
    Step ⟨before, tokens, b :: rest⟩ ⟨before ++ lexeme.text,
      tokens ++ ofMatch (lineAfter before) lexeme.text lexeme.token?, more⟩ := by
  obtain ⟨longest, hsplit⟩ := next_eq_ok_iff.1 h
  rw [hsplit] at longest ⊢
  exact .cut longest

theorem Step.unique {p q q' : Place} (h : Step p q) (h' : Step p q') : q = q' := by
  obtain ⟨b, rest, lexeme, hrest, hnext, hbefore, htokens⟩ := h.exists_next
  obtain ⟨b', rest', lexeme', hrest', hnext', hbefore', htokens'⟩ := h'.exists_next
  obtain ⟨rfl, rfl⟩ := List.cons.inj (hrest.symm.trans hrest')
  rw [hnext] at hnext'
  obtain ⟨rfl, hmore⟩ := Prod.mk.inj (Except.ok.inj hnext')
  obtain ⟨before, tokens, more⟩ := q
  obtain ⟨before', tokens', more'⟩ := q'
  simp only at hbefore htokens hmore hbefore' htokens'
  rw [hbefore, htokens, hmore, hbefore', htokens']

theorem scanFrom_nil (acc : List Token) (line : Nat) :
    scanFrom acc line [] = .ok (acc.reverse ++ [endMark line]) := by
  rw [scanFrom, List.reverse_cons]

theorem scanFrom_error {b : UInt8} {rest : Bytes} {trouble : Trouble}
    (h : next b rest = .error trouble) (acc : List Token) (line : Nat) :
    scanFrom acc line (b :: rest) = .error (trouble.diagnostic line) := by
  rw [scanFrom]
  split
  · next trouble' h' =>
    rw [h] at h'
    cases h'
    rfl
  · next lexeme more h' =>
    rw [h] at h'
    cases h'

theorem scanFrom_ok {b : UInt8} {rest more : Bytes} {lexeme : Lexeme}
    (h : next b rest = .ok (lexeme, more)) (tokens : List Token) (line : Nat) :
    scanFrom tokens.reverse line (b :: rest)
      = scanFrom (tokens ++ ofMatch line lexeme.text lexeme.token?).reverse
          (line + Bytes.newlines lexeme.text) more := by
  rw [scanFrom]
  split
  · next trouble h' =>
    rw [h] at h'
    cases h'
  · next lexeme' more' h' =>
    rw [h] at h'
    cases h'
    cases htoken : lexeme.token? with
    | none => rw [ofMatch, List.append_nil]
    | some token =>
      rw [ofMatch, List.reverse_append]
      rfl

/-- The scanner, resumed at a place. -/
def scanAt (place : Place) : Except Diagnostic (List Token) :=
  scanFrom place.tokens.reverse (lineAfter place.before) place.rest

/-- One cut is one turn of the loop. -/
theorem scanAt_step {p q : Place} (h : Step p q) : scanAt p = scanAt q := by
  obtain ⟨b, rest, lexeme, hrest, hnext, hbefore, htokens⟩ := h.exists_next
  unfold scanAt
  rw [hrest, scanFrom_ok hnext, hbefore, htokens, lineAfter_append]

/-- **The scanner may be resumed at every place that is reached.** -/
theorem scan_of_reached {source : Bytes} {place : Place} (h : Reached source place) :
    scan source = scanAt place := by
  induction h with
  | refl => rfl
  | tail _ step ih => rw [ih, scanAt_step step]

/-! ### Where cuts end -/

/-- A place inside the source where no pattern matches. -/
def Place.Stuck (place : Place) : Prop := place.rest ≠ [] ∧ Unmatched place.rest

theorem Place.Stuck.not_step {p q : Place} (h : p.Stuck) : ¬ Step p q := by
  rintro ⟨longest⟩
  exact h.2 _ _ longest.1 longest.2.1

/-- From every place, cuts lead to the end of the source or to a place where nothing matches. -/
theorem exists_last (p : Place) :
    ∃ q, Relation.ReflTransGen Step p q ∧ (q.rest = [] ∨ q.Stuck) := by
  -- by the length of the rest, which every cut makes shorter
  induction hn : p.rest.length using Nat.strongRecOn generalizing p with
  | ind n ih =>
    obtain ⟨before, tokens, rest⟩ := p
    rcases rest with _ | ⟨b, rest⟩
    · exact ⟨_, .refl, .inl rfl⟩
    cases hnext : next b rest with
    | error trouble =>
      have hnone := (next_eq_error_iff.1 hnext).1
      exact ⟨_, .refl, .inr ⟨List.cons_ne_nil b rest, hnone⟩⟩
    | ok cut =>
      have hlt : cut.2.length < n := by
        rw [← hn]
        exact Nat.lt_succ_of_le (length_next_le hnext)
      obtain ⟨q, hq, hlast⟩ := ih _ hlt ⟨_, _, cut.2⟩ rfl
      exact ⟨q, .head (step_of_next hnext) hq, hlast⟩

/-- At most one place where nothing matches is reached. -/
theorem Reached.eq_of_stuck {source : Bytes} {p q : Place} (hp : Reached source p)
    (hq : Reached source q) (hpstuck : p.Stuck) (hqstuck : q.Stuck) : p = q := by
  have hunique : Relator.RightUnique Step := fun _ _ _ h h' => h.unique h'
  rcases Relation.ReflTransGen.total_of_right_unique hunique hp hq with h | h
  · rcases h.cases_head with heq | ⟨_, step, -⟩
    · exact heq
    · exact absurd step hpstuck.not_step
  · rcases h.cases_head with heq | ⟨_, step, -⟩
    · exact heq.symm
    · exact absurd step hqstuck.not_step

/-- The scanner reads the end of the source as an end mark. -/
theorem scan_of_end {source : Bytes} {tokens : List Token}
    (h : Reached source ⟨source, tokens, []⟩) :
    scan source = .ok (tokens ++ [endMark (lineAfter source)]) := by
  rw [scan_of_reached h]
  show scanFrom tokens.reverse (lineAfter source) [] = _
  rw [scanFrom_nil, List.reverse_reverse]

/-- The scanner gives up where nothing matches. -/
theorem scan_of_stuck {source before rest : Bytes} {tokens : List Token} {b : UInt8}
    {trouble : Trouble} (h : Reached source ⟨before, tokens, b :: rest⟩)
    (hnone : Unmatched (b :: rest)) (hblocked : Blocked b rest trouble) :
    scan source = .error (trouble.diagnostic (lineAfter before)) := by
  rw [scan_of_reached h]
  exact scanFrom_error (next_eq_error_iff.2 ⟨hnone, hblocked⟩) tokens.reverse (lineAfter before)

/-- Some trouble is met where nothing matches. -/
theorem exists_blocked (b : UInt8) (rest : Bytes) : ∃ trouble, Blocked b rest trouble := by
  by_cases hb : b = Bytes.quoteMark
  · exact ⟨_, .string hb⟩
  · exact ⟨_, .character hb ((Utf8.startsWith_iff b rest _).2 rfl)⟩

/-- The scanner's two answers, by the last place that is reached. -/
theorem scan_cases (source : Bytes) :
    (∃ tokens, Reached source ⟨source, tokens, []⟩ ∧
      scan source = .ok (tokens ++ [endMark (lineAfter source)])) ∨
    ∃ before tokens b rest trouble, Reached source ⟨before, tokens, b :: rest⟩ ∧
      Unmatched (b :: rest) ∧ Blocked b rest trouble ∧
      scan source = .error (trouble.diagnostic (lineAfter before)) := by
  obtain ⟨⟨before, tokens, rest⟩, hreached, hend | ⟨hne, hnone⟩⟩ := exists_last ⟨[], [], source⟩
  · obtain rfl : rest = [] := hend
    obtain rfl : before = source := by
      rw [← Reached.append_eq hreached, List.append_nil]
    exact .inl ⟨tokens, hreached, scan_of_end hreached⟩
  · rcases rest with _ | ⟨b, rest⟩
    · exact absurd rfl hne
    obtain ⟨trouble, hblocked⟩ := exists_blocked b rest
    exact .inr ⟨before, tokens, b, rest, trouble, hreached, hnone, hblocked,
      scan_of_stuck hreached hnone hblocked⟩

/-- The diagnostic of the trouble that is met at a place. -/
theorem exists_blocked_iff {b : UInt8} {rest : Bytes} {line : Int} {d : Diagnostic} :
    (∃ trouble, Blocked b rest trouble ∧ d = trouble.diagnostic line) ↔
      b = Bytes.quoteMark ∧ d = .unterminatedString line ∨
        b ≠ Bytes.quoteMark ∧ ∃ c, Utf8.StartsWith (b :: rest) c ∧ d = .unexpectedCharacter line c := by
  constructor
  · rintro ⟨trouble, hblocked, rfl⟩
    cases hblocked with
    | string hb => exact .inl ⟨hb, rfl⟩
    | character hb hc => exact .inr ⟨hb, _, hc, rfl⟩
  · rintro (⟨hb, rfl⟩ | ⟨hb, c, hc, rfl⟩)
    · exact ⟨_, .string hb, rfl⟩
    · exact ⟨_, .character hb hc, rfl⟩

/-- The answer is a list of tokens exactly when the end of the source is reached. -/
theorem scan_eq_ok_iff {source : Bytes} {result : List Token} :
    scan source = .ok result ↔
      ∃ tokens, Reached source ⟨source, tokens, []⟩ ∧
        result = tokens ++ [endMark (lineAfter source)] := by
  constructor
  · intro h
    obtain ⟨tokens, hreached, hok⟩ | ⟨_, _, _, _, _, -, -, -, herror⟩ := scan_cases source
    · exact ⟨tokens, hreached, Except.ok.inj (h.symm.trans hok)⟩
    · cases h.symm.trans herror
  · rintro ⟨tokens, hreached, rfl⟩
    exact scan_of_end hreached

/-- The answer is a diagnostic exactly when a place is reached where nothing matches. -/
theorem scan_eq_error_iff {source : Bytes} {d : Diagnostic} :
    scan source = .error d ↔
      ∃ before tokens b rest trouble, Reached source ⟨before, tokens, b :: rest⟩ ∧
        Unmatched (b :: rest) ∧ Blocked b rest trouble ∧
        d = trouble.diagnostic (lineAfter before) := by
  constructor
  · intro h
    obtain ⟨_, -, hok⟩ | ⟨before, tokens, b, rest, trouble, hreached, hnone, hblocked, herror⟩ :=
      scan_cases source
    · cases h.symm.trans hok
    · exact ⟨before, tokens, b, rest, trouble, hreached, hnone, hblocked,
        Except.error.inj (h.symm.trans herror)⟩
  · rintro ⟨before, tokens, b, rest, trouble, hreached, hnone, hblocked, rfl⟩
    exact scan_of_stuck hreached hnone hblocked

/-- **Scanning takes the longest match again and again.** The tokens of a source are those of the
longest matches that make it up, with an end mark behind them. There is a diagnostic instead exactly
when a place is reached where no pattern matches, and it is about the first such place: an
unterminated string if a quote stands there, and otherwise the character that stands there. -/
theorem scan_maximal_munch (source : Bytes) :
    (∀ result, scan source = .ok result ↔
      ∃ tokens, Reached source ⟨source, tokens, []⟩ ∧
        result = tokens ++ [endMark (lineAfter source)]) ∧
    ((∃ d, scan source = .error d) ↔ ∃ place, Reached source place ∧ place.Stuck) ∧
    (∀ d, scan source = .error d ↔
      ∃ before tokens b rest,
        Reached source ⟨before, tokens, b :: rest⟩ ∧ Unmatched (b :: rest) ∧
        (∀ place, Reached source place → place.Stuck → before.length ≤ place.before.length) ∧
        (b = Bytes.quoteMark ∧ d = .unterminatedString (lineAfter before) ∨
          b ≠ Bytes.quoteMark ∧ ∃ c, Utf8.StartsWith (b :: rest) c ∧
            d = .unexpectedCharacter (lineAfter before) c)) := by
  refine ⟨fun _ => scan_eq_ok_iff, ⟨?_, ?_⟩, fun d => ⟨fun h => ?_, ?_⟩⟩
  · rintro ⟨d, h⟩
    obtain ⟨_, _, b, rest, _, hreached, hnone, -, -⟩ := scan_eq_error_iff.1 h
    exact ⟨_, hreached, List.cons_ne_nil b rest, hnone⟩
  · rintro ⟨⟨before, tokens, rest⟩, hreached, hne, hnone⟩
    rcases rest with _ | ⟨b, rest⟩
    · exact absurd rfl hne
    · obtain ⟨trouble, hblocked⟩ := exists_blocked b rest
      exact ⟨_, scan_of_stuck hreached hnone hblocked⟩
  · obtain ⟨before, tokens, b, rest, trouble, hreached, hnone, hblocked, hd⟩ :=
      scan_eq_error_iff.1 h
    refine ⟨before, tokens, b, rest, hreached, hnone, ?_, exists_blocked_iff.1 ⟨_, hblocked, hd⟩⟩
    -- only one such place is reached, so it is the first
    intro place hplace hstuck
    have heq := hreached.eq_of_stuck hplace ⟨List.cons_ne_nil b rest, hnone⟩ hstuck
    subst heq
    exact Nat.le_refl _
  · rintro ⟨before, tokens, b, rest, hreached, hnone, -, hreport⟩
    obtain ⟨trouble, hblocked, hd⟩ := exists_blocked_iff.2 hreport
    exact scan_eq_error_iff.2 ⟨before, tokens, b, rest, trouble, hreached, hnone, hblocked, hd⟩

end Reckoner.Token

/-! ## Calls of one scanner -/

namespace Reckoner.Scanner

/-- A scanner keeps what scanning its source gives, and before the first call no fault. -/
structure Sound (s : Scanner) : Prop where
  kept_eq : s.done = true → s.kept = Token.scan s.source
  fault_eq : s.done = false → s.fault = none

theorem sound_new (source : Bytes) : Sound { source } := ⟨nofun, fun _ => rfl⟩

/-- A call scans the source or finds that done; either way the next call finds it done. -/
theorem Sound.call {s : Scanner} (h : s.Sound) :
    s.call.1 = Token.scan s.source ∧ s.call.2.source = s.source ∧ s.call.2.Sound := by
  unfold Scanner.call
  cases hdone : s.done with
  | true =>
    rw [if_pos rfl]
    exact ⟨h.kept_eq hdone, rfl, h⟩
  | false =>
    rw [if_neg Bool.false_ne_true]
    cases hscan : Token.scan s.source with
    | error d => exact ⟨rfl, rfl, fun _ => hscan.symm, nofun⟩
    | ok tokens =>
      refine ⟨rfl, rfl, fun _ => ?_, nofun⟩
      simp only [kept, h.fault_eq hdone, hscan]

theorem Sound.answers {s : Scanner} (h : s.Sound) (calls : Nat) :
    s.answers calls = List.replicate calls (Token.scan s.source) := by
  induction calls generalizing s with
  | zero => rfl
  | succ calls ih =>
    obtain ⟨hanswer, hsource, hsound⟩ := h.call
    rw [Scanner.answers, hanswer, ih hsound, hsource]
    rfl

/-- **Later calls answer as the first one did**, and that is to scan the source. -/
theorem answers_new (source : Bytes) (calls : Nat) :
    answers { source } calls = List.replicate calls (Token.scan source) :=
  (sound_new source).answers calls

end Reckoner.Scanner
