import Reckoner.Proofs.Fronts
import Reckoner.Proofs.Joining

/-!
# Reckoner.Proofs.Messages — what is said of a valid source is valid

Complaints quote the source: the scanner shows a character, the grammar and the types show a lexeme.
A character is shown by its own form or by ASCII escapes (`Text.valid_quoteChar`), and the lexemes
of a valid source are valid; so every complaint about a valid source is (`Session.fault_valid`), also
where several are joined (`Bytes.valid_join`).

With that, nothing in an answer to a call is beyond what messages can carry, and calls about valid
sources fail for the reasons of the source and of the caller alone (`Rpc.evaluate_of_valid`,
`Rpc.parse_of_valid`).

Main statement: `Session.said_valid`.
-/

namespace Reckoner

open Utf8 (valid Ascii)

/-! ## Texts put together -/

namespace Bytes

theorem valid_flatMap {α : Type} {f : α → Bytes} {items : List α}
    (h : ∀ a ∈ items, valid (f a) = true) : valid (items.flatMap f) = true := by
  induction items with
  | nil => exact Utf8.valid_nil
  | cons a rest ih =>
    obtain ⟨ha, hrest⟩ := List.forall_mem_cons.1 h
    rw [List.flatMap_cons]
    exact Utf8.valid_append ha (ih hrest)

theorem valid_join {sep : Bytes} {pieces : List Bytes} (hsep : valid sep = true)
    (h : ∀ piece ∈ pieces, valid piece = true) : valid (join sep pieces) = true := by
  cases pieces with
  | nil => exact Utf8.valid_nil
  | cons piece more =>
    obtain ⟨hpiece, hmore⟩ := List.forall_mem_cons.1 h
    apply Utf8.valid_append hpiece
    apply valid_flatMap
    intro next hnext
    exact Utf8.valid_append hsep (hmore next hnext)

theorem valid_lines {texts : List Bytes} (h : ∀ text ∈ texts, valid text = true) :
    valid (lines texts) = true := by
  apply valid_flatMap
  intro text htext
  exact Utf8.valid_append (h text htext) (Ascii.valid (by decide))

end Bytes

namespace Text

theorem toNat_hexDigit_lt {n : Nat} (h : n < 16) : (hexDigit n).toNat < 0x80 := by
  have hall : ∀ k : Fin 16, (hexDigit k).toNat < 0x80 := by decide
  exact hall ⟨n, h⟩

theorem ascii_hex (width n : Nat) : Ascii (hex width n) := by
  induction width generalizing n with
  | zero => exact fun b hb => nomatch hb
  | succ width ih =>
    have hlast : (hexDigit (n % 16)).toNat < 0x80 := toNat_hexDigit_lt (Nat.mod_lt _ (by decide))
    exact (ih (n / 16)).append (List.forall_mem_singleton.2 hlast)

theorem toNat_shortEscape_lt {c letter : Char} (h : shortEscape c = some letter) :
    (byte letter).toNat < 0x80 := by
  unfold shortEscape at h
  split at h <;> cases h <;> decide

/-- A character is shown by its own form or in ASCII. -/
theorem valid_escaped (mark c : Char) : valid (escaped mark c) = true := by
  have hform : valid (Utf8.encode c) = true := by
    have happend := Utf8.valid_encode_append c []
    rw [List.append_nil] at happend
    rw [happend, Utf8.valid_nil]
  have hhex : ∀ {start : Bytes} (width : Nat), Ascii start →
      valid (start ++ hex width c.toNat) = true :=
    fun width hstart => (hstart.append (ascii_hex width _)).valid
  unfold escaped
  split
  · rw [Utf8.valid_cons (by decide)]
    exact hform
  split
  · exact hform
  split
  · next letter hletter =>
    apply Ascii.valid
    exact List.forall_mem_cons.2 ⟨by decide,
      List.forall_mem_singleton.2 (toNat_shortEscape_lt hletter)⟩
  split
  · exact hhex 2 (by decide)
  split
  · exact hhex 4 (by decide)
  · exact hhex 8 (by decide)

theorem valid_quoteChar (c : Char) : valid (quoteChar c) = true := by
  show valid (byte '\'' :: (escaped '\'' c ++ [byte '\''])) = true
  rw [Utf8.valid_cons (by decide), Utf8.valid_append_left (valid_escaped _ c)]
  exact Ascii.valid (by decide)

end Text

theorem Number.ascii_decimalInt (n : Int) : Ascii (decimalInt n) := by
  cases n with
  | ofNat n => exact ascii_decimal n
  | negSucc n => exact List.forall_mem_cons.2 ⟨by decide, ascii_decimal (n + 1)⟩

theorem ValueType.ascii_name (τ : ValueType) : Ascii τ.name := by
  cases τ <;> decide

theorem EvaluationState.ascii_name (state : EvaluationState) : Ascii state.name := by
  cases state <;> decide

theorem Interruption.ascii_message (cause : Interruption) : Ascii cause.message := by
  cases cause <;> decide

theorem History.ascii_nameOf (n : Nat) : Ascii (nameOf n) := by
  have hdigits : Ascii (Bytes.padLeft 6 (byte '0') (Number.decimal n)) :=
    (Number.ascii_replicate _).append (Number.ascii_decimal n)
  have hword : Ascii (utf8 "eval-") := by decide
  exact hword.append hdigits

/-! ## Diagnostics -/

namespace Diagnostic

/-- Are the texts of a diagnostic valid? -/
structure Valid (d : Diagnostic) : Prop where
  place : valid d.place = true
  detail : valid d.detail = true

/-- A valid diagnostic is reported in a valid text: all else in it is ASCII. -/
theorem Valid.message {d : Diagnostic} (h : d.Valid) : valid d.message = true := by
  have hword : Ascii (utf8 "[line ") := by decide
  have hfront : Ascii (utf8 "[line " ++ Number.decimalInt d.line ++ utf8 "] Error") :=
    (hword.append (Number.ascii_decimalInt d.line)).append (by decide)
  have hcolon : Ascii (utf8 ": ") := by decide
  unfold Diagnostic.message
  rw [List.append_assoc, List.append_assoc, Utf8.valid_append_left hfront.valid,
    Utf8.valid_append_left h.place, Utf8.valid_append_left hcolon.valid]
  exact h.detail

theorem valid_unexpectedCharacter (line : Int) (c : Char) : (unexpectedCharacter line c).Valid where
  place := Utf8.valid_nil
  detail := by
    show valid (utf8 "Unexpected character " ++ Text.quoteChar c ++ utf8 ".") = true
    have hwords : Ascii (utf8 "Unexpected character ") := by decide
    rw [List.append_assoc, Utf8.valid_append_left hwords.valid,
      Utf8.valid_append_left (Text.valid_quoteChar c)]
    exact Ascii.valid (by decide)

theorem valid_unterminatedString (line : Int) : (unterminatedString line).Valid where
  place := Utf8.valid_nil
  detail := by
    have hwords : Ascii (utf8 "Unterminated string.") := by decide
    exact hwords.valid

end Diagnostic

theorem Token.valid_endMark (line : Int) : (endMark line).Valid :=
  ⟨Utf8.valid_nil, Value.valid_text fun _ hs => nomatch hs⟩

/-- The place of a token quotes its lexeme. -/
theorem Token.Valid.place {t : Token} (h : t.Valid) : valid t.place = true := by
  unfold Token.place
  split
  · exact Ascii.valid (by decide)
  · have hat : Ascii (utf8 " at '") := by decide
    rw [List.append_assoc, Utf8.valid_append_left hat.valid, Utf8.valid_append_left h.1]
    exact Ascii.valid (by decide)

namespace Tree

/-- A complaint about a valid token is valid. -/
theorem Blames.valid {d : Diagnostic} {t : Token} (h : Blames d t) (ht : t.Valid) : d.Valid := by
  obtain ⟨wanted, rfl⟩ := h
  have hwords : ∀ text ∈ ["Expect expression.", "Expect ')' after expression.",
      "Expect ';' after expression.", "Expect end of expression."], Ascii (utf8 text) := by decide
  cases wanted with
  | expression => exact ⟨ht.place, (hwords _ (by simp)).valid⟩
  | closingParen => exact ⟨ht.place, (hwords _ (by simp)).valid⟩
  | separator => exact ⟨ht.place, (hwords _ (by simp)).valid⟩
  | endOfInput => exact ⟨ht.place, (hwords _ (by simp)).valid⟩

/-- The complaint about an operator quotes its lexeme at most. -/
theorem Clash.valid {node : Tree} {d : Diagnostic} {op : Token} (h : Clash node d)
    (hroot : node.operator? = some op) (hop : op.Valid) : d.Valid := by
  have hnames : ∀ (front : Bytes) (l r : ValueType), Utf8.valid front = true →
      Utf8.valid (front ++ l.name ++ utf8 " and " ++ r.name ++ utf8 ".") = true := by
    intro front l r hfront
    have htail : Ascii (l.name ++ utf8 " and " ++ r.name ++ utf8 ".") :=
      ((l.ascii_name.append (by decide)).append r.ascii_name).append (by decide)
    have hwhole := Utf8.valid_append hfront htail.valid
    simpa only [List.append_assoc] using hwhole
  cases h with
  | @negation op' operand τ hkind hoperand hclash =>
    have hfront : Ascii (utf8 "Operand must be a number, got ") := by decide
    exact ⟨Utf8.valid_nil, ((hfront.append τ.ascii_name).append (by decide)).valid⟩
  | sum => exact ⟨Utf8.valid_nil, hnames _ _ _ (Ascii.valid (by decide))⟩
  | numbers =>
    cases hroot
    refine ⟨Utf8.valid_nil, hnames _ _ _ ?_⟩
    have hwords : Ascii (utf8 "Operands of '") := by decide
    rw [List.append_assoc, Utf8.valid_append_left hwords.valid, Utf8.valid_append_left hop.1]
    exact Ascii.valid (by decide)

/-- The diagnostics of a program of valid tokens are valid. -/
theorem valid_of_mem_diagnostics {tokens : List Token} (h : ∀ t ∈ tokens, t.Valid) :
    ∀ d ∈ (parseProgram tokens).diagnostics, d.Valid := by
  intro d hd
  obtain ⟨blamed, hsub, hblames⟩ := exists_blamed (endLineOf tokens) tokens
  obtain ⟨t, ht, hdt⟩ := exists_blames_of_mem hblames d hd
  apply hdt.valid
  rcases List.mem_append.1 (hsub.subset ht) with hmem | hmem
  · exact h t hmem
  · rw [List.mem_singleton.1 hmem]
    exact Token.valid_endMark _

/-- So is the diagnostic of a single expression. -/
theorem valid_of_parseSingle {tokens : List Token} {d : Diagnostic} (h : ∀ t ∈ tokens, t.Valid)
    (hd : parseSingle tokens = .error d) : d.Valid := by
  obtain ⟨t, ht, hdt⟩ := blames_of_single hd
  apply hdt.valid
  rcases List.mem_append.1 ht with hmem | hmem
  · exact h t hmem
  · rw [List.mem_singleton.1 hmem]
    exact Token.valid_endMark _

end Tree

/-! ## Faults -/

namespace Fault

/-- Are the text of a fault and those of its diagnostics valid? -/
structure Valid (f : Fault) : Prop where
  message : valid f.message = true
  diagnostics : ∀ d ∈ f.diagnostics, d.Valid

theorem valid_diagnostic {d : Diagnostic} (h : d.Valid) : (diagnostic d).Valid where
  message := by
    rw [Fault.message]
    exact h.message
  diagnostics := by
    rw [Fault.diagnostics]
    exact List.forall_mem_singleton.2 h

theorem messages_map (ds : List Diagnostic) :
    messages (ds.map .diagnostic) = ds.map Diagnostic.message := by
  induction ds with
  | nil => rfl
  | cons d ds ih => simp only [List.map_cons, messages, Fault.message, ih]

/-- Valid diagnostics may be joined. -/
theorem valid_joined {ds : List Diagnostic} (h : ∀ d ∈ ds, d.Valid) :
    (joined (ds.map .diagnostic)).Valid where
  message := by
    rw [Fault.message, messages_map]
    apply Bytes.valid_join (Ascii.valid (by decide))
    intro text htext
    obtain ⟨d, hd, rfl⟩ := List.mem_map.1 htext
    exact (h d hd).message
  diagnostics := by
    rw [Fault.diagnostics, diagnosticsOf_map]
    exact h

theorem valid_interrupted (cause : Interruption) : (interrupted cause).Valid where
  message := by
    rw [Fault.message]
    exact cause.ascii_message.valid
  diagnostics := by
    rw [Fault.diagnostics]
    exact fun d hd => nomatch hd

end Fault

/-! ## Sources -/

namespace Session

open Reckoner.Tree

/-- The scanner's complaint shows one character, whatever the source is. -/
theorem valid_of_scan_error {source : Bytes} {d : Diagnostic}
    (h : Token.scan source = .error d) : d.Valid := by
  obtain ⟨before, _, _, _, trouble, -, -, -, rfl⟩ := Token.scan_eq_error_iff.1 h
  cases trouble with
  | unexpectedCharacter c => exact Diagnostic.valid_unexpectedCharacter _ c
  | unterminatedString => exact Diagnostic.valid_unterminatedString _

variable {source : Bytes} (hsource : valid source = true)

include hsource

/-- The trees of a valid source are printed in valid texts, and so are their values. -/
theorem tree_valid {t : Tree} (ht : t ∈ (parse source).1) :
    valid t.text = true ∧ ∀ v, t.eval = .ok v → valid v.text = true := by
  obtain ⟨tokens, hscan, used, hused, hderives⟩ := exists_derives_of_mem_parse ht
  have htokens := Token.valid_of_scan hscan hsource
  exact hderives.valid fun t ht => htokens t (hused.subset ht)

/-- The complaint about an operator of a valid source is valid. -/
theorem clash_valid {t node : Tree} {d : Diagnostic} (ht : t ∈ (parse source).1)
    (hnode : node ∈ t.operators) (hclash : Clash node d) : d.Valid := by
  obtain ⟨tokens, hscan, used, hused, hderives⟩ := exists_derives_of_mem_parse ht
  obtain ⟨op, hop, hroot, -⟩ := hderives.exists_operator node hnode
  exact hclash.valid hroot (Token.valid_of_scan hscan hsource op (hused.subset hop))

/-- The fault of reading a valid source is valid. -/
theorem parse_fault_valid : ∀ f ∈ (parse source).2, f.Valid := by
  intro f hf
  unfold parse at hf
  split at hf
  · next d hscan =>
    cases hf
    exact Fault.valid_diagnostic (valid_of_scan_error hscan)
  · next tokens hscan =>
    have htokens := Token.valid_of_scan hscan hsource
    simp only [Fault.join?] at hf
    split at hf
    · cases hf
    · cases hf
      exact Fault.valid_joined (valid_of_mem_diagnostics htokens)

/-- **The fault of a run of a valid source is valid.** -/
theorem fault_valid (patience : Patience) : ∀ f ∈ (run patience source).1.fault, f.Valid := by
  intro f hf
  have hends := run_ends patience source
  rw [Option.mem_def.1 hf] at hends
  -- a run ends in one of four ways with a fault
  cases hends with
  | unscanned hscan => exact Fault.valid_diagnostic (valid_of_scan_error hscan)
  | ungrammatical hscan =>
    exact Fault.valid_joined (valid_of_mem_diagnostics (Token.valid_of_scan hscan hsource))
  | clash ht hnode hclash => exact Fault.valid_diagnostic (clash_valid hsource ht hnode hclash)
  | interrupted => exact Fault.valid_interrupted _

omit hsource in
/-- A single expression is derived from tokens of the source. -/
theorem exists_derives_of_parseSingle {tokens : List Token} {t : Tree}
    (h : parseSingle tokens = .ok t) :
    ∃ used, used ⊆ tokens ∧ Grammar.Derives .expression used t := by
  obtain ⟨used, rest, hsplit, hderives, -⟩ := single_eq_ok_iff.1 h
  refine ⟨used, ?_, hderives⟩
  show used ⊆ (Reading.start tokens).rest
  rw [hsplit]
  exact List.subset_append_left used rest

/-- A valid source that holds a single expression has a valid value or a valid fault. -/
theorem evaluate_valid :
    (∀ v, evaluate source = .ok v → valid v.text = true) ∧
      ∀ f, evaluate source = .error f → f.Valid := by
  unfold evaluate
  cases hscan : Token.scan source with
  | error d =>
    refine ⟨fun v hv => (nomatch hv), fun f hf => ?_⟩
    cases hf
    exact Fault.valid_diagnostic (valid_of_scan_error hscan)
  | ok tokens =>
    have htokens := Token.valid_of_scan hscan hsource
    simp only
    cases hsingle : parseSingle tokens with
    | error d =>
      refine ⟨fun v hv => (nomatch hv), fun f hf => ?_⟩
      cases hf
      exact Fault.valid_diagnostic (valid_of_parseSingle htokens hsingle)
    | ok t =>
      obtain ⟨used, hused, hderives⟩ := exists_derives_of_parseSingle hsingle
      have hvalid : ∀ tok ∈ used, tok.Valid := fun tok htok => htokens tok (hused htok)
      simp only
      cases heval : t.eval with
      | ok v =>
        refine ⟨fun w hw => ?_, fun f hf => (nomatch hf)⟩
        cases hw
        exact (hderives.valid hvalid).2 v heval
      | error e =>
        refine ⟨fun w hw => (nomatch hw), fun f hf => ?_⟩
        obtain ⟨node, hnode, d, hclash, hd⟩ := clash_of_eval hderives.proper heval
        obtain ⟨op, hop, hroot, -⟩ := hderives.exists_operator node hnode
        cases hf
        rw [hd]
        exact Fault.valid_diagnostic (hclash.valid hroot (hvalid op hop))

end Session

/-! ## Calls -/

namespace Rpc

/-- Are the texts of an answer valid? -/
structure EvaluationMessage.Valid (m : EvaluationMessage) : Prop where
  name : valid m.name = true
  state : valid m.state.name = true
  results : ∀ r ∈ m.results, r.valid = true ∧ valid r.type.name = true

theorem EvaluationMessage.valid_ofEvaluation {run : Run}
    (h : ∀ o ∈ run.outcomes, valid o.expression = true ∧ valid o.value.text = true)
    (history : History) (source : Bytes) (t : History.Timing) :
    (ofEvaluation (history.next source run t)).Valid where
  name := (History.ascii_nameOf _).valid
  state := (EvaluationState.ascii_name _).valid
  results := by
    intro r hr
    obtain ⟨o, ho, rfl⟩ := List.mem_map.1 hr
    obtain ⟨hexpression, hvalue⟩ := h o ho
    exact ⟨valid_ofOutcome hexpression hvalue, o.value.type.ascii_name.valid⟩

/-- A status that tells of the source or of the caller, and not of the server. -/
structure Status.Excused (status : Status) : Prop where
  code : status.code ≠ .internal
  message : valid status.message = true

theorem Status.message_ofFault (f : Fault) : (ofFault f).message = f.message := by
  unfold ofFault
  split
  · rfl
  · rfl
  · split <;> rfl

theorem Status.code_ofFault_ne {f : Fault}
    (h : (∃ d, f.first? = some d) ∨ ∃ cause, f = .interrupted cause) :
    (ofFault f).code ≠ .internal := by
  rcases h with ⟨d, hd⟩ | ⟨cause, rfl⟩
  · rw [ofFault_eq hd]
    intro hcode
    cases hcode
  · cases cause <;> decide

/-- The status of a valid fault that has a diagnostic, or is an interruption. -/
theorem Status.excused_ofFault {f : Fault} (hvalid : f.Valid)
    (h : (∃ d, f.first? = some d) ∨ ∃ cause, f = .interrupted cause) : (ofFault f).Excused where
  code := code_ofFault_ne h
  message := by
    rw [message_ofFault]
    exact hvalid.message

variable {source : Bytes} (hsource : valid source = true)

include hsource

/-- The printed trees of a valid source can be carried as well. -/
theorem parse_of_valid :
    parse source
      = (Session.parse source).2.elim (.ok ((Session.parse source).1.map Tree.text))
          (fun f => .error (.ofFault f)) := by
  have htrees : ((Session.parse source).1.map Tree.text).all valid = true := by
    simp only [List.all_map, List.all_eq_true, Function.comp_apply]
    intro t ht
    exact (Session.tree_valid hsource ht).1
  rcases hparse : Session.parse source with ⟨trees, fault⟩
  rw [hparse] at htrees
  cases fault with
  | some f => simp only [parse, hparse, Option.elim]
  | none =>
    simp only [parse, hparse]
    exact if_pos htrees

theorem evaluate_excused (h : History) (t : History.Timing) (patience : Patience) :
    ∀ status, (evaluate h t patience source).1 = .error status → status.Excused := by
  intro status hstatus
  have hanswer := evaluate_of_valid hsource patience h t
  cases hfault : (Session.run patience source).1.fault with
  | none =>
    simp only [hfault, Option.elim_none] at hanswer
    cases hstatus.symm.trans hanswer
  | some f =>
    simp only [hfault, Option.elim_some] at hanswer
    cases hstatus.symm.trans hanswer
    apply Status.excused_ofFault (Session.fault_valid hsource patience f hfault)
    obtain ⟨d, hd, -⟩ | ⟨-, hinterrupted⟩ := Session.exists_first?_or_interrupted hfault
    · exact .inl ⟨d, hd⟩
    · exact .inr ⟨_, hinterrupted⟩

theorem parse_excused : ∀ status, parse source = .error status → status.Excused := by
  intro status hstatus
  rw [parse_of_valid hsource] at hstatus
  cases hfault : (Session.parse source).2 with
  | none =>
    rw [hfault] at hstatus
    cases hstatus
  | some f =>
    rw [hfault] at hstatus
    cases hstatus
    apply Status.excused_ofFault (Session.parse_fault_valid hsource f hfault)
    -- a run of the source would end with the same fault
    have hrun : (Session.runFully source).fault = some f := by
      rw [Session.runFully_of_fault hfault]
    obtain ⟨d, hd, -⟩ := Session.exists_first? hrun
    exact .inl ⟨d, hd⟩

end Rpc

/-- **Everything that is said of a valid source is valid.** The lexemes and strings of its tokens
are, the printed trees are, and so are the outcomes of a run, however long its caller waits, and the
values of single expressions. Where there is a fault, of scanning, of the grammar or of types, its
message is valid, and so is every text of every diagnostic in it, be they joined or not. A call is
therefore answered whenever there is no fault, with valid texts only; and whenever it fails, its
status tells of the source or of the caller: it is never that an answer could not be carried. -/
theorem Session.said_valid {source : Bytes} (hsource : valid source = true) :
    ((∀ tokens, Token.scan source = .ok tokens →
        (∀ t ∈ tokens, t.Valid) ∧
        (∀ t, Tree.parseSingle tokens = .ok t → valid t.text = true) ∧
        ∀ d, Tree.parseSingle tokens = .error d → (Fault.diagnostic d).Valid) ∧
      ∀ d, Token.scan source = .error d → (Fault.diagnostic d).Valid) ∧
    ((∀ t ∈ (parse source).1, valid t.text = true) ∧ ∀ f ∈ (parse source).2, f.Valid) ∧
    ((∀ v, evaluate source = .ok v → valid v.text = true) ∧
      ∀ f, evaluate source = .error f → f.Valid) ∧
    (∀ patience, let run := (run patience source).1
      (∀ o ∈ run.outcomes, valid o.expression = true ∧ valid o.value.text = true) ∧
      valid run.printed = true ∧ (∀ f ∈ run.fault, f.Valid) ∧
      ∀ (history : History) (t : History.Timing),
        let answer := (Rpc.evaluate history t patience source).1
        (run.fault = none → ∃ m, answer = .ok m ∧ m.Valid ∧ m.results = Rpc.resultsOf run) ∧
        ∀ status, answer = .error status → status.Excused) ∧
    ((parse source).2 = none → Rpc.parse source = .ok ((parse source).1.map Tree.text)) ∧
    ∀ status, Rpc.parse source = .error status → status.Excused := by
  refine ⟨⟨fun tokens hscan => ?_, fun d hd => Fault.valid_diagnostic (valid_of_scan_error hd)⟩,
    ⟨fun t ht => (tree_valid hsource ht).1, parse_fault_valid hsource⟩, evaluate_valid hsource,
    fun patience => ?_, fun hfault => ?_, Rpc.parse_excused hsource⟩
  · have htokens := Token.valid_of_scan hscan hsource
    refine ⟨htokens, fun t ht => ?_, fun d hd => ?_⟩
    · obtain ⟨used, hused, hderives⟩ := exists_derives_of_parseSingle ht
      exact (hderives.valid fun tok htok => htokens tok (hused htok)).1
    · exact Fault.valid_diagnostic (Tree.valid_of_parseSingle htokens hd)
  · have houtcomes := outcomes_valid hsource patience
    refine ⟨houtcomes, ?_, fault_valid hsource patience, fun history t => ⟨fun hfault => ?_,
      Rpc.evaluate_excused hsource history t patience⟩⟩
    · apply Bytes.valid_lines
      intro text htext
      obtain ⟨o, ho, rfl⟩ := List.mem_map.1 htext
      exact (houtcomes o ho).2
    · have hanswer := Rpc.evaluate_of_valid hsource patience history t
      simp only [hfault, Option.elim_none] at hanswer
      exact ⟨_, hanswer, Rpc.EvaluationMessage.valid_ofEvaluation houtcomes history source t, rfl⟩
  · rw [Rpc.parse_of_valid hsource, hfault]
    rfl

/-- A source whose complaints quote a character and a lexeme of more than one byte each. -/
theorem Session.said_valid_quoted :
    let source := utf8 "(\"é\" \"ü\""
    let text := utf8 "[line 1] Error at '\"ü\"': Expect ')' after expression."
    valid source = true ∧
      (∃ f, (parse source).2 = some f ∧ f.message = text ∧ f.Valid) ∧
      ∃ status, Rpc.parse source = .error status ∧ status.message = text ∧ status.Excused := by
  intro source text
  have hsource : valid source = true := by with_unfolding_all rfl
  obtain ⟨-, ⟨-, hfault⟩, -, -, -, hcall⟩ := said_valid hsource
  obtain ⟨f, hf, hmessage⟩ : ∃ f, (parse source).2 = some f ∧ f.message = text :=
    ⟨_, by with_unfolding_all rfl, by with_unfolding_all rfl⟩
  obtain ⟨status, hstatus, htold⟩ : ∃ status, Rpc.parse source = .error status ∧
      status.message = text :=
    ⟨_, by with_unfolding_all rfl, by with_unfolding_all rfl⟩
  exact ⟨hsource, ⟨f, hf, hmessage, hfault f hf⟩, ⟨status, hstatus, htold, hcall status hstatus⟩⟩

end Reckoner
