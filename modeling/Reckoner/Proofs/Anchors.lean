import Reckoner.Proofs.Gaps
import Reckoner.Proofs.Origin

/-!
# Reckoner.Proofs.Anchors — diagnostics are about what stands on their lines

A line is counted by the scanner, copied into tokens, from these into trees, and from both into
diagnostics. All along it stays the line of something in the source: of the byte that the scanner
stopped at, of the token that does not fit the grammar, or of the operator whose operands do not fit
it (`Diagnostic.Anchored`).

The tokens of a source stand in it in order, so their lines do not decrease (`Reached.ordered`); and
since diagnostics of the grammar are about tokens in order, neither do theirs.

Main statement: `run_anchored`.
-/

namespace Reckoner

namespace Token

open Lexeme

/-! ## Where tokens stand -/

/-- `Stands source t`: cuts lead to a place of the source where the token is the longest match, and
the token bears the line of that place. -/
def Stands (source : Bytes) (t : Token) : Prop :=
  ∃ before tokens rest, Reached source ⟨before, tokens, t.lexeme ++ rest⟩ ∧
    LongestMatch (t.lexeme ++ rest) t.lexeme (some (t.kind, t.literal)) ∧ t.line = lineAfter before

/-- The tokens that were met stand in the source. -/
theorem Reached.stands {source : Bytes} {place : Place} (h : Reached source place) :
    ∀ t ∈ place.tokens, Stands source t := by
  induction h with
  | refl =>
    intro t ht
    cases ht
  | tail hplace step ih =>
    cases step with
    | @cut before text rest tokens token? longest =>
      intro t ht
      rcases List.mem_append.1 ht with ht | ht
      · exact ih t ht
      cases token? with
      | none => cases ht
      | some token =>
        rw [List.mem_singleton.1 ht]
        exact ⟨before, tokens, rest, hplace, longest, rfl⟩

/-- No place lies behind the last line of a source. -/
theorem lineAfter_le {source before rest : Bytes} (h : before ++ rest = source) :
    lineAfter before ≤ lineAfter source := by
  rw [← h, lineAfter_append]
  omega

theorem Stands.line_le {source : Bytes} {t : Token} (h : Stands source t) :
    1 ≤ t.line ∧ t.line ≤ lineAfter source := by
  obtain ⟨before, tokens, rest, hreached, -, hline⟩ := h
  have hle : lineAfter before ≤ lineAfter source := lineAfter_le hreached.append_eq
  have hpos : 1 ≤ lineAfter before := Nat.le_add_right 1 _
  rw [hline]
  omega

/-- `Ordered tokens last`: the lines of the tokens do not decrease, and none is behind `last`. -/
def Ordered (tokens : List Token) (last : Int) : Prop :=
  (tokens.map line).Pairwise (· ≤ ·) ∧ ∀ t ∈ tokens, t.line ≤ last

theorem Ordered.mono {tokens : List Token} {last last' : Int} (h : Ordered tokens last)
    (hle : last ≤ last') : Ordered tokens last' := by
  refine ⟨h.1, ?_⟩
  intro t ht
  exact Int.le_trans (h.2 t ht) hle

/-- A token on the last line may follow. -/
theorem Ordered.concat {tokens : List Token} {t : Token} {last : Int} (h : Ordered tokens last)
    (ht : t.line = last) : Ordered (tokens ++ [t]) last := by
  obtain ⟨hsorted, hbound⟩ := h
  constructor
  · rw [List.map_append, List.pairwise_append]
    refine ⟨hsorted, List.pairwise_singleton _ _, ?_⟩
    intro line hline line' hline'
    obtain ⟨u, hu, rfl⟩ := List.mem_map.1 hline
    rw [List.mem_singleton.1 hline', ht]
    exact hbound u hu
  · intro u hu
    rcases List.mem_append.1 hu with hu | hu
    · exact hbound u hu
    · exact Int.le_of_eq (List.mem_singleton.1 hu ▸ ht)

/-- The tokens that were met are in order, and none is behind the place that was reached. -/
theorem Reached.ordered {source : Bytes} {place : Place} (h : Reached source place) :
    Ordered place.tokens (lineAfter place.before) := by
  induction h with
  | refl => exact ⟨List.Pairwise.nil, by simp⟩
  | tail _ step ih =>
    cases step with
    | @cut before text rest tokens token? longest =>
      have hle : (lineAfter before : Int) ≤ lineAfter (before ++ text) :=
        Int.ofNat_le.2 (lineAfter_le rfl)
      cases token? with
      | none =>
        rw [ofMatch, List.append_nil]
        exact ih.mono hle
      | some token => exact (ih.concat rfl).mono hle

/-- The end mark of a scanned source is on its last line. -/
theorem endLineOf_of_scan {source : Bytes} {tokens : List Token} (h : scan source = .ok tokens) :
    Tree.endLineOf tokens = lineAfter source := by
  obtain ⟨tokens, -, rfl⟩ := scan_eq_ok_iff.1 h
  simp [Tree.endLineOf, endMark]

/-- The tokens of a scanned source are in order, and so is the end mark that is seen behind them. -/
theorem ordered_of_scan {source : Bytes} {tokens : List Token} (h : scan source = .ok tokens) :
    Ordered (tokens ++ [endMark (lineAfter source)]) (lineAfter source) := by
  obtain ⟨tokens, hreached, rfl⟩ := scan_eq_ok_iff.1 h
  exact (hreached.ordered.concat rfl).concat rfl

/-- The tokens of a scanned source stand in it, but for the end mark. -/
theorem stands_or_end {source : Bytes} {tokens : List Token} (h : scan source = .ok tokens) :
    ∀ t ∈ tokens ++ [endMark (lineAfter source)],
      Stands source t ∧ t.isEnd = false ∨ t = endMark (lineAfter source) := by
  obtain ⟨tokens, hreached, rfl⟩ := scan_eq_ok_iff.1 h
  intro t ht
  rcases List.mem_append.1 ht with ht | ht
  · rcases List.mem_append.1 ht with ht | ht
    · refine .inl ⟨hreached.stands t ht, ?_⟩
      simpa [isEnd] using hreached.kind_ne_eof t ht
    · exact .inr (List.mem_singleton.1 ht)
  · exact .inr (List.mem_singleton.1 ht)

end Token

/-! ## What a message quotes -/

namespace Text

/-- The mark around a lexeme in a message. -/
abbrev apostrophe : UInt8 := 39

/-- `Quotes text x`: the first two apostrophes of the text stand around `x`. -/
def Quotes (text x : Bytes) : Prop :=
  ∃ front back, text = front ++ apostrophe :: (x ++ apostrophe :: back) ∧
    apostrophe ∉ front ∧ apostrophe ∉ x

/-- Two ways to divide a text at its first apostrophe are the same. -/
theorem divided_unique {front front' back back' : Bytes}
    (h : front ++ apostrophe :: back = front' ++ apostrophe :: back') (hfront : apostrophe ∉ front)
    (hfront' : apostrophe ∉ front') : front = front' ∧ back = back' := by
  have hfirst : ∀ {front back : Bytes}, apostrophe ∉ front →
      (front ++ apostrophe :: back).takeWhile (· != apostrophe) = front := by
    intro front back hfront
    have hall : ∀ b ∈ front, (b != apostrophe) = true := by
      intro b hb
      rw [bne_iff_ne]
      rintro rfl
      exact hfront hb
    rw [List.takeWhile_append_of_pos hall, List.takeWhile_cons_of_neg (by decide), List.append_nil]
  have heq : front = front' := by
    rw [← hfirst hfront, h, hfirst hfront']
  subst heq
  exact ⟨rfl, (List.cons.inj (List.append_cancel_left h)).2⟩

theorem Quotes.unique {text x y : Bytes} (h : Quotes text x) (h' : Quotes text y) : x = y := by
  obtain ⟨front, back, htext, hfront, hx⟩ := h
  obtain ⟨front', back', htext', hfront', hy⟩ := h'
  obtain ⟨-, hrest⟩ := divided_unique (htext.symm.trans htext') hfront hfront'
  exact (divided_unique hrest hx hy).1

theorem Quotes.mem {text x : Bytes} (h : Quotes text x) : apostrophe ∈ text := by
  obtain ⟨front, back, rfl, -, -⟩ := h
  simp

end Text

/-- Only strings have apostrophes in them. -/
theorem Lexeme.Matches.apostrophe_notMem {text : Bytes} {kind : TokenKind} {literal : Value}
    (h : Matches text (some (kind, literal))) (hkind : kind ≠ .string) :
    Text.apostrophe ∉ text := by
  have hspellings : ∀ entry ∈ spellings, Text.apostrophe ∉ entry.1 := by decide
  have hdigits : ∀ {s : Bytes}, Digits s → Text.apostrophe ∉ s := by
    intro s hs hmem
    exact absurd (hs.2 _ hmem) (by decide)
  intro hmem
  cases h with
  | spelling h => exact hspellings _ h hmem
  | string => exact hkind rfl
  | whole h => exact hdigits h hmem
  | decimal h hplaces =>
    rcases List.mem_append.1 hmem with hmem | hmem
    · exact hdigits h hmem
    rcases List.mem_cons.1 hmem with hpoint | hmem
    · exact absurd hpoint (by decide)
    · exact hdigits hplaces hmem
  | word h hmore =>
    rcases List.mem_cons.1 hmem with rfl | hmem
    · exact absurd h (by decide)
    · exact absurd (hmore _ hmem) (by decide)

theorem TokenKind.IsOperator.ne_string {kind : TokenKind} (h : kind.IsOperator) :
    kind ≠ .string := by
  rintro rfl
  rcases h with h | h <;> cases h

theorem ValueType.apostrophe_notMem (τ : ValueType) : Text.apostrophe ∉ τ.name := by
  cases τ <;> decide

/-- **A complaint about an operator quotes no other lexeme.** -/
theorem Tree.Clash.quotes {node : Tree} {d : Diagnostic} {op : Token} {x : Bytes}
    (h : Clash node d) (hroot : node.operator? = some op) (hop : Text.apostrophe ∉ op.lexeme)
    (hquotes : Text.Quotes d.detail x) : x = op.lexeme := by
  cases h with
  | @negation _ _ τ =>
    -- no apostrophe at all
    refine absurd hquotes.mem ?_
    simp only [Diagnostic.typeError, List.mem_append, not_or]
    exact ⟨⟨by decide, τ.apostrophe_notMem⟩, by decide⟩
  | @sum _ _ _ l r =>
    refine absurd hquotes.mem ?_
    simp only [Diagnostic.typeError, List.mem_append, not_or]
    exact ⟨⟨⟨⟨by decide, l.apostrophe_notMem⟩, by decide⟩, r.apostrophe_notMem⟩, by decide⟩
  | @numbers _ _ op' l r =>
    obtain rfl : op' = op := Option.some.inj hroot
    have hbefore : utf8 "Operands of '" = utf8 "Operands of " ++ [Text.apostrophe] := by decide
    have hafter : utf8 "' must be numbers, got "
        = Text.apostrophe :: utf8 " must be numbers, got " := by decide
    refine hquotes.unique ⟨utf8 "Operands of ", utf8 " must be numbers, got " ++ l.name
      ++ utf8 " and " ++ r.name ++ utf8 ".", ?_, by decide, hop⟩
    simp only [Diagnostic.typeError, hbefore, hafter, List.append_assoc, List.cons_append,
      List.nil_append]

/-! ## Anchors -/

namespace Diagnostic

open Token Lexeme

/-- Is the diagnostic at the end of the source, or at a token that it quotes? -/
def AtWord (source : Bytes) (d : Diagnostic) : Prop :=
  d.place = utf8 " at end" ∧ d.line = lineAfter source ∨
    ∃ t, Stands source t ∧ d.place = utf8 " at '" ++ t.lexeme ++ utf8 "'" ∧ d.line = t.line

/-- Is the diagnostic about what stands on its line of the source?

* An unexpected character stands where the scanner has come to, and no lexeme starts there.
* An unterminated string has its opening quote there, and no other quote behind it.
* A fault of the grammar is at the end of the source or at a token, which it quotes.
* An error of types is about an operator of a tree of the source. It quotes no other lexeme. -/
def Anchored (source : Bytes) (d : Diagnostic) : Prop :=
  match d.kind with
  | .unexpectedCharacter =>
    ∃ before tokens b rest c, Reached source ⟨before, tokens, b :: rest⟩ ∧ Unmatched (b :: rest) ∧
      Utf8.StartsWith (b :: rest) c ∧ d = .unexpectedCharacter (lineAfter before) c
  | .unterminatedString =>
    ∃ before tokens rest, Reached source ⟨before, tokens, Bytes.quoteMark :: rest⟩ ∧
      Bytes.quoteMark ∉ rest ∧ d = .unterminatedString (lineAfter before)
  | .expectedToken => d.AtWord source
  | .unexpectedExpression => d.AtWord source
  | .typeError =>
    ∃ t ∈ (Session.parse source).1, ∃ node ∈ t.operators, ∃ op, node.operator? = some op ∧
      Stands source op ∧ d.line = op.line ∧ Tree.Clash node d ∧
      ∀ x, Text.Quotes d.detail x → x = op.lexeme
  | .other _ => False

/-- The lines that diagnostics are anchored at are lines of the source. -/
theorem Anchored.line_le {source : Bytes} {d : Diagnostic} (h : d.Anchored source) :
    1 ≤ d.line ∧ d.line ≤ lineAfter source := by
  have hplace : ∀ {before tokens rest}, Reached source ⟨before, tokens, rest⟩ →
      (1 : Int) ≤ lineAfter before ∧ (lineAfter before : Int) ≤ lineAfter source := by
    intro before tokens rest hreached
    have hle : lineAfter before ≤ lineAfter source := lineAfter_le hreached.append_eq
    have hpos : 1 ≤ lineAfter before := Nat.le_add_right 1 _
    omega
  have hword : d.AtWord source → 1 ≤ d.line ∧ d.line ≤ lineAfter source := by
    rintro (⟨-, hline⟩ | ⟨t, ht, -, hline⟩)
    · have hpos : 1 ≤ lineAfter source := Nat.le_add_right 1 _
      omega
    · rw [hline]
      exact ht.line_le
  unfold Anchored at h
  split at h
  · obtain ⟨before, tokens, b, rest, c, hreached, -, -, rfl⟩ := h
    exact hplace hreached
  · obtain ⟨before, tokens, rest, hreached, -, rfl⟩ := h
    exact hplace hreached
  · exact hword h
  · exact hword h
  · obtain ⟨_, -, _, -, op, -, hop, hline, -⟩ := h
    rw [hline]
    exact hop.line_le
  · exact h.elim

/-- The diagnostic of the scanner. -/
theorem anchored_of_scan {source : Bytes} {d : Diagnostic} (h : scan source = .error d) :
    d.Anchored source := by
  obtain ⟨before, tokens, b, rest, trouble, hreached, hnone, hblocked, rfl⟩ :=
    scan_eq_error_iff.1 h
  cases hblocked with
  | character hb hc => exact ⟨before, tokens, b, rest, _, hreached, hnone, hc, rfl⟩
  | string hb =>
    subst hb
    refine ⟨before, tokens, rest, hreached, ?_, rfl⟩
    -- with a quote in the rest there would be a string to match
    intro hmem
    obtain ⟨body, more, hsplit, hbody⟩ := List.eq_append_cons_of_mem hmem
    apply hnone _ _ (Matches.string hbody)
    rw [hsplit]
    exact ⟨more, by simp⟩

/-- A diagnostic of the grammar about a token that stands in the source, or about its end. -/
theorem anchored_of_blames {source : Bytes} {d : Diagnostic} {t : Token}
    (ht : Stands source t ∧ t.isEnd = false ∨ t = endMark (lineAfter source))
    (h : Tree.Blames d t) : d.Anchored source := by
  obtain ⟨wanted, rfl⟩ := h
  have hword : (t.misplaced wanted).AtWord source := by
    rcases ht with ⟨hstands, hend⟩ | rfl
    · have hplace : t.place = utf8 " at '" ++ t.lexeme ++ utf8 "'" := by
        rw [Token.place, hend]
        rfl
      refine .inr ⟨t, hstands, ?_, ?_⟩
      · cases wanted <;> exact hplace
      · cases wanted <;> rfl
    · refine .inl ⟨?_, ?_⟩
      · cases wanted <;> rfl
      · cases wanted <;> rfl
  cases wanted <;> exact hword

theorem map_line_of_blames {ds : List Diagnostic} {blamed : List Token}
    (h : List.Forall₂ Tree.Blames ds blamed) : ds.map line = blamed.map Token.line := by
  rw [← List.forall₂_eq_eq_eq, List.forall₂_map_left_iff, List.forall₂_map_right_iff]
  exact h.imp fun _ _ hblames => hblames.line

end Diagnostic

namespace Session

open Token

/-- The complaint about an operator of a tree of the source. -/
theorem anchored_of_clash {source : Bytes} {t node : Tree} {d : Diagnostic}
    (ht : t ∈ (parse source).1) (hnode : node ∈ t.operators) (hclash : Tree.Clash node d) :
    d.Anchored source := by
  obtain ⟨tokens, hscan, used, hused, hderives⟩ := exists_derives_of_mem_parse ht
  obtain ⟨op, hop, hroot, hkind⟩ := hderives.exists_operator node hnode
  have hmem : op ∈ tokens ++ [endMark (lineAfter source)] :=
    List.mem_append_left _ (hused.subset hop)
  -- an end mark is no operator, so the operator stands in the source
  have hstands : Stands source op := by
    rcases stands_or_end hscan op hmem with ⟨hstands, -⟩ | rfl
    · exact hstands
    · rcases hkind with hkind | hkind <;> cases hkind
  have hquotes : ∀ x, Text.Quotes d.detail x → x = op.lexeme := by
    intro x hx
    obtain ⟨_, _, _, _, longest, -⟩ := hstands
    exact hclash.quotes hroot (longest.1.apostrophe_notMem hkind.ne_string) hx
  have hline : d.kind = .typeError ∧ d.line = op.line := by
    cases hclash <;> cases hroot <;> exact ⟨rfl, rfl⟩
  unfold Diagnostic.Anchored
  rw [hline.1]
  exact ⟨t, ht, node, hnode, op, hroot, hstands, hline.2, hclash, hquotes⟩

/-- **Every diagnostic is anchored in the source.** Whatever a run complains about stands in the
source, on the line that the complaint names; so these are lines of the source, and where there are
several complaints their lines do not decrease. -/
theorem run_anchored {patience : Patience} {source : Bytes} {fault : Fault}
    (h : (run patience source).1.fault = some fault) :
    (∀ d ∈ fault.diagnostics,
      d.Anchored source ∧ 1 ≤ d.line ∧ d.line ≤ (1 + Bytes.newlines source : Nat)) ∧
    (fault.diagnostics.map Diagnostic.line).Pairwise (· ≤ ·) := by
  have hends := run_ends patience source
  rw [h] at hends
  suffices hanchored : (∀ d ∈ fault.diagnostics, d.Anchored source) ∧
      (fault.diagnostics.map Diagnostic.line).Pairwise (· ≤ ·) by
    refine ⟨?_, hanchored.2⟩
    intro d hd
    exact ⟨hanchored.1 d hd, (hanchored.1 d hd).line_le⟩
  cases hends with
  | unscanned hscan =>
    rw [Fault.diagnostics]
    have hd := Diagnostic.anchored_of_scan hscan
    exact ⟨List.forall_mem_singleton.2 hd, List.pairwise_singleton _ _⟩
  | clash ht hnode hclash =>
    rw [Fault.diagnostics]
    have hd := anchored_of_clash ht hnode hclash
    exact ⟨List.forall_mem_singleton.2 hd, List.pairwise_singleton _ _⟩
  | interrupted _ =>
    rw [Fault.diagnostics]
    exact ⟨by simp, List.Pairwise.nil⟩
  | @ungrammatical tokens hscan _ =>
    rw [Fault.diagnostics, Fault.diagnosticsOf_map]
    obtain ⟨blamed, hsub, hblames⟩ := Tree.exists_blamed (Tree.endLineOf tokens) tokens
    rw [endLineOf_of_scan hscan] at hsub
    constructor
    · intro d hd
      obtain ⟨t, ht, hd⟩ := Tree.exists_blames_of_mem hblames d hd
      exact Diagnostic.anchored_of_blames (stands_or_end hscan t (hsub.subset ht)) hd
    · have hlines : (Tree.parseProgram tokens).diagnostics.map Diagnostic.line
          = blamed.map Token.line := Diagnostic.map_line_of_blames hblames
      rw [hlines]
      exact (ordered_of_scan hscan).1.sublist (hsub.map _)

/-- Two complaints of the grammar, on the first line and on the last. -/
theorem run_anchored_lines :
    let source := utf8 "nil nil;\n// c\n(nil"
    let fault := Fault.joined [
      .diagnostic (.expectedToken 1 (utf8 " at 'nil'") (utf8 "Expect ';' after expression.")),
      .diagnostic (.expectedToken 3 (utf8 " at end") (utf8 "Expect ')' after expression."))]
    (run .endless source).1.fault = some fault ∧
      (∀ d ∈ fault.diagnostics,
        d.Anchored source ∧ 1 ≤ d.line ∧ d.line ≤ (1 + Bytes.newlines source : Nat)) ∧
      (fault.diagnostics.map Diagnostic.line).Pairwise (· ≤ ·) := by
  intro source fault
  have hfault : (run .endless source).1.fault = some fault := by with_unfolding_all rfl
  exact ⟨hfault, run_anchored hfault⟩

end Session

end Reckoner
