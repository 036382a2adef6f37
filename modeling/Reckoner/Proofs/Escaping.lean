import Reckoner.Page
import Reckoner.Proofs.Retention

/-!
# Reckoner.Proofs.Escaping — texts between markup

A text on a page is escaped: what could start or end a tag, a quoted attribute or a reference is
written as a reference. So the bytes of a text are harmless (`Inert`) and still read as the text
(`Reads`, `reads_escape`).

To see what becomes of tags, a page is gone through byte by byte (`tagsFrom`), outside tags, inside
a tag, or inside a quoted attribute of a tag. Escaped texts leave that place as it is: outside tags
no tag starts, and a quoted attribute does not end.
-/

namespace Reckoner

/-- The bytes of a literal, one character after the other. Long literals are evaluated in this form,
which does not push byte after byte onto an array. -/
theorem utf8_ofList (l : List Char) : utf8 (String.ofList l) = l.flatMap Utf8.encode := by
  rw [utf8, String.toUTF8, String.toByteArray_ofList, List.utf8Encode, List.data_toByteArray]
  rfl

namespace Markup

/-! ## References -/

/-- `Reference name shown`: between an ampersand and a semicolon the name stands for these bytes. It
is a word, or the number of a visible character. -/
inductive Reference : Bytes → Bytes → Prop
  | ampersand : Reference (utf8 "amp") [byte '&']
  | less : Reference (utf8 "lt") [byte '<']
  | greater : Reference (utf8 "gt") [byte '>']
  | numbered (n : Nat) (visible : 0x20 ≤ n ∧ n < 0x7f) :
      Reference (byte '#' :: Number.decimal n) [UInt8.ofNat n]

/-- The bytes that start or end a tag or a quoted attribute. -/
def delimiters : List UInt8 := [byte '<', byte '>', byte '"', 39]

/-- No byte of the text means anything in markup. -/
def isPlain (s : Bytes) : Bool := s.all fun b => !(byte '&' :: delimiters).contains b

/-- A text without markup: no delimiter stands in it, and every ampersand starts a reference. -/
structure Inert (t : Bytes) : Prop where
  undelimited : ∀ b ∈ t, b ∉ delimiters
  referring : ∀ front rest, t = front ++ byte '&' :: rest →
    ∃ name shown more, rest = name ++ byte ';' :: more ∧ Reference name shown

/-- `Reads t s`: the text `t` without markup is read as `s`. -/
inductive Reads : Bytes → Bytes → Prop
  | nil : Reads [] []
  | plain {b : UInt8} {t s : Bytes} (hb : b ∉ byte '&' :: delimiters) (behind : Reads t s) :
      Reads (b :: t) (b :: s)
  | reference {name shown t s : Bytes} (stands : Reference name shown) (behind : Reads t s) :
      Reads (byte '&' :: (name ++ byte ';' :: t)) (shown ++ s)

theorem Reads.append {t s t' s' : Bytes} (h : Reads t s) (h' : Reads t' s') :
    Reads (t ++ t') (s ++ s') := by
  induction h with
  | nil => exact h'
  | plain hb _ ih => exact .plain hb ih
  | @reference name shown t s stands _ ih =>
    rw [List.append_assoc, List.cons_append, List.append_assoc, List.cons_append]
    exact .reference stands ih

theorem notMem_of_isPlain {s : Bytes} (h : isPlain s = true) :
    ∀ b ∈ s, b ∉ byte '&' :: delimiters := by
  intro b hb
  have hplain := List.all_eq_true.1 h b hb
  rwa [Bool.not_eq_true', List.contains_eq_mem, decide_eq_false_iff_not] at hplain

/-- The name of a reference has no byte in it that is markup. -/
theorem Reference.plain {name shown : Bytes} (h : Reference name shown) :
    ∀ b ∈ name, b ∉ byte '&' :: delimiters := by
  cases h with
  | numbered n _ =>
    rw [List.forall_mem_cons]
    refine ⟨by decide, fun b hb hmem => ?_⟩
    have hdigit := Number.isDigit_of_mem_decimal b hb
    have hdigits : (byte '&' :: delimiters).all (fun b => !Bytes.isDigit b) = true := by decide
    simpa [hdigit] using List.all_eq_true.1 hdigits b hmem
  | _ => exact notMem_of_isPlain (by decide)

/-- **What reads as a text has no markup in it.** -/
theorem Reads.inert {t s : Bytes} (h : Reads t s) : Inert t := by
  induction h with
  | nil => exact ⟨fun b hb => absurd hb List.not_mem_nil, by simp⟩
  | @plain b t s hb _ ih =>
    have hdelimiter : b ∉ delimiters := fun hmem => hb (List.mem_cons_of_mem _ hmem)
    refine ⟨List.forall_mem_cons.2 ⟨hdelimiter, ih.undelimited⟩, ?_⟩
    intro front rest heq
    rcases front with _ | ⟨c, front⟩
    · obtain ⟨rfl, -⟩ := List.cons.inj heq
      exact absurd List.mem_cons_self hb
    · exact ih.referring front rest (List.cons.inj heq).2
  | @reference name shown t s stands _ ih =>
    have hname := stands.plain
    constructor
    · have hampersand : byte '&' ∉ delimiters := by decide
      have hsemicolon : byte ';' ∉ delimiters := by decide
      rw [List.forall_mem_cons, List.forall_mem_append, List.forall_mem_cons]
      exact ⟨hampersand, fun b hb hmem => hname b hb (List.mem_cons_of_mem _ hmem), hsemicolon,
        ih.undelimited⟩
    · intro front rest heq
      rcases front with _ | ⟨c, front⟩
      · exact ⟨name, shown, t, (List.cons.inj heq).2.symm, stands⟩
      · -- the ampersand stands behind this reference, since there is none in its name
        rcases List.append_eq_append_iff.1 (List.cons.inj heq).2 with
          ⟨more, rfl, hmore⟩ | ⟨more, rfl, hmore⟩
        · rcases more with _ | ⟨d, more⟩
          · exact absurd (List.cons.inj hmore).1 (by decide)
          · exact ih.referring more rest (List.cons.inj hmore).2
        · rcases more with _ | ⟨d, more⟩
          · exact absurd (List.cons.inj hmore).1 (by decide)
          · obtain ⟨rfl, -⟩ := List.cons.inj hmore
            exact absurd List.mem_cons_self (hname _ (by simp))

/-! ## Escaped texts -/

/-- What a reader sees of a byte: the zero byte cannot be shown. -/
def shownByte (b : UInt8) : Bytes := if b = 0 then Utf8.encode Rune.replacement else [b]

/-- What a reader sees of a text. -/
def shown (s : Bytes) : Bytes := s.flatMap shownByte

theorem reads_plain {s : Bytes} (h : isPlain s = true) : Reads s s := by
  have hplain := notMem_of_isPlain h
  clear h
  induction s with
  | nil => exact .nil
  | cons b s ih =>
    rw [List.forall_mem_cons] at hplain
    exact .plain hplain.1 (ih hplain.2)

theorem reads_reference {name shown : Bytes} (h : Reference name shown) :
    Reads (byte '&' :: (name ++ [byte ';'])) shown := by
  have hreads := Reads.reference h .nil
  rwa [List.append_nil] at hreads

theorem reads_numbered {n : Nat} (h : 0x20 ≤ n ∧ n < 100) :
    Reads (utf8 "&#" ++ [Number.digit (n / 10), Number.digit n] ++ utf8 ";") [UInt8.ofNat n] := by
  have hdecimal : Number.decimal n = [Number.digit (n / 10), Number.digit n] := by
    rw [Number.decimal, if_neg (by omega), Number.decimal, if_pos (by omega)]
    rfl
  have hreads := reads_reference (.numbered n ⟨h.1, by omega⟩)
  rw [hdecimal] at hreads
  exact hreads

/-- Every byte but zero is shown, as it is or by a reference. -/
theorem reads_escapedByte (b : UInt8) : Reads (escapedByte b) (shownByte b) := by
  unfold escapedByte Http.escapedByte shownByte
  by_cases hzero : b = 0
  · rw [if_pos hzero, if_pos hzero]
    exact reads_plain (by decide)
  rw [if_neg hzero, if_neg hzero]
  by_cases hplus : b = byte '+'
  · subst hplus
    exact reads_numbered (n := 43) (by decide)
  by_cases hampersand : b = byte '&'
  · subst hampersand
    exact reads_reference .ampersand
  by_cases hless : b = byte '<'
  · subst hless
    exact reads_reference .less
  by_cases hgreater : b = byte '>'
  · subst hgreater
    exact reads_reference .greater
  by_cases hquote : b = byte '"'
  · subst hquote
    exact reads_numbered (n := 34) (by decide)
  by_cases happ : b = 39
  · subst happ
    exact reads_numbered (n := 39) (by decide)
  rw [if_neg hplus, if_neg hampersand, if_neg hless, if_neg hgreater, if_neg hquote, if_neg happ]
  exact .plain (by simp [delimiters, hampersand, hless, hgreater, hquote, happ]) .nil

/-- **An escaped text is read as the text.** -/
theorem reads_escape (s : Bytes) : Reads (escape s) (shown s) := by
  induction s with
  | nil => exact .nil
  | cons b s ih => exact (reads_escapedByte b).append ih

theorem inert_escape (s : Bytes) : Inert (escape s) := (reads_escape s).inert

/-! ## Tags -/

/-- Where one is on a page: outside tags, or inside a tag with these bytes read so far, the last one
first, perhaps inside quotes. -/
inductive Mode where
  | text
  | tag (seen : Bytes) (quote : Option UInt8)
  deriving DecidableEq

/-- Goes past a byte; gives the tag that it ends, if there is one. -/
def Mode.next : Mode → UInt8 → Option Bytes × Mode
  | text, b => (none, if b = byte '<' then .tag [b] none else .text)
  | tag seen none, b =>
    if b = byte '>' then (some (b :: seen).reverse, .text)
    else (none, .tag (b :: seen) (if b = byte '"' ∨ b = 39 then some b else none))
  | tag seen (some quote), b => (none, .tag (b :: seen) (if b = quote then none else some quote))

/-- The tags that end in a text, each with all of its bytes, and where one is behind it. -/
def tagsFrom (mode : Mode) : Bytes → List Bytes × Mode
  | [] => ([], mode)
  | b :: rest =>
    let (tag?, mode) := mode.next b
    let (tags, mode) := tagsFrom mode rest
    (tag?.toList ++ tags, mode)

/-- The tags of a page, in order. -/
def tags (page : Bytes) : List Bytes := (tagsFrom .text page).1

theorem tagsFrom_append (mode : Mode) (s t : Bytes) :
    tagsFrom mode (s ++ t) =
      ((tagsFrom mode s).1 ++ (tagsFrom (tagsFrom mode s).2 t).1,
        (tagsFrom (tagsFrom mode s).2 t).2) := by
  induction s generalizing mode with
  | nil => rfl
  | cons b s ih => simp only [List.cons_append, tagsFrom, ih, List.append_assoc]

/-- Outside tags a text without markup starts none. -/
theorem Inert.tagsFrom_text {t : Bytes} (h : Inert t) : tagsFrom .text t = ([], .text) := by
  have hplain := h.undelimited
  clear h
  induction t with
  | nil => rfl
  | cons b t ih =>
    rw [List.forall_mem_cons] at hplain
    have hne : b ≠ byte '<' := fun heq => hplain.1 (heq ▸ List.mem_cons_self)
    simp only [tagsFrom, Mode.next, if_neg hne, ih hplain.2]
    rfl

/-- Inside quotes a text without markup does not end them. -/
theorem Inert.tagsFrom_quoted {t : Bytes} {quote : UInt8} (h : Inert t)
    (hquote : quote ∈ delimiters) (seen : Bytes) :
    tagsFrom (.tag seen (some quote)) t = ([], .tag (t.reverse ++ seen) (some quote)) := by
  have hplain := h.undelimited
  clear h
  induction t generalizing seen with
  | nil => rfl
  | cons b t ih =>
    rw [List.forall_mem_cons] at hplain
    have hne : b ≠ quote := fun heq => hplain.1 (heq ▸ hquote)
    simp only [tagsFrom, Mode.next, if_neg hne, ih _ hplain.2]
    simp

example : tags (utf8 "<a href=\"x>y\">z</a> &lt;b>") = [utf8 "<a href=\"x>y\">", utf8 "</a>"] := by
  decide

/-! ## Pieces of pages -/

/-- The markup of a piece; none for a text. -/
def Piece.markup? : Piece → Option Bytes
  | markup html => some html
  | text _ => none

/-- The text of a piece; none for markup. -/
def Piece.text? : Piece → Option Bytes
  | markup _ => none
  | text content => some content

/-- The markup of a page, with holes where texts stand. -/
def template (pieces : List Piece) : List (Option Bytes) := pieces.map Piece.markup?

/-- The texts of a page, in order. -/
def texts (pieces : List Piece) : List Bytes := pieces.filterMap Piece.text?

theorem mem_texts {t : Bytes} {pieces : List Piece} :
    t ∈ texts pieces ↔ Piece.text t ∈ pieces := by
  rw [texts, List.mem_filterMap]
  constructor
  · rintro ⟨p, hp, htext⟩
    cases p with
    | markup html => cases htext
    | text content =>
      obtain rfl := Option.some.inj htext
      exact hp
  · exact fun h => ⟨_, h, rfl⟩

/-- Puts texts into the holes of a template. -/
def fill : List (Option Bytes) → List Bytes → Bytes
  | [], _ => []
  | some html :: rest, contents => html ++ fill rest contents
  | none :: rest, content :: contents => content ++ fill rest contents
  | none :: rest, [] => fill rest []

/-- **A page is its template with escaped texts in the holes.** -/
theorem render_eq_fill (pieces : List Piece) :
    render pieces = fill (template pieces) ((texts pieces).map escape) := by
  induction pieces with
  | nil => rfl
  | cons p pieces ih =>
    show p.render ++ render pieces = _
    rw [ih]
    cases p <;> rfl

theorem render_append (ps qs : List Piece) : render (ps ++ qs) = render ps ++ render qs :=
  List.flatMap_append

/-- The pieces end outside tags if they start there. -/
def Closed (pieces : List Piece) : Prop := (tagsFrom .text (render pieces)).2 = .text

instance (pieces : List Piece) : Decidable (Closed pieces) :=
  inferInstanceAs (Decidable ((tagsFrom .text (render pieces)).2 = .text))

/-- Two lists of pieces with the same template and the same tags, which end outside tags. -/
structure Alike (ps qs : List Piece) : Prop where
  template : template ps = template qs
  tags : tags (render ps) = tags (render qs)
  closed : Closed ps ∧ Closed qs

namespace Alike

theorem append {ps qs ps' qs' : List Piece} (h : Alike ps qs) (h' : Alike ps' qs') :
    Alike (ps ++ ps') (qs ++ qs') where
  template := by
    rw [Markup.template, Markup.template, List.map_append, List.map_append]
    exact congrArg₂ (· ++ ·) h.template h'.template
  tags := by
    rw [Markup.tags, Markup.tags, render_append, render_append, tagsFrom_append, tagsFrom_append,
      h.closed.1, h.closed.2]
    exact congrArg₂ (· ++ ·) h.tags h'.tags
  closed := by
    rw [Closed, Closed, render_append, render_append, tagsFrom_append, tagsFrom_append,
      h.closed.1, h.closed.2]
    exact h'.closed

theorem cons {p q : Piece} {ps qs : List Piece} (h : Alike [p] [q]) (h' : Alike ps qs) :
    Alike (p :: ps) (q :: qs) := h.append h'

/-- Pieces that end outside tags are like themselves. -/
theorem same {ps : List Piece} (h : Closed ps) : Alike ps ps := ⟨rfl, rfl, h, h⟩

theorem nil : Alike [] [] := same rfl

/-- Outside tags any text may stand for any other. -/
theorem text (s t : Bytes) : Alike [.text s] [.text t] := by
  have hread : ∀ s, tagsFrom .text (render [.text s]) = ([], .text) := by
    intro s
    show tagsFrom .text (escape s ++ []) = _
    rw [List.append_nil]
    exact (inert_escape s).tagsFrom_text
  refine ⟨rfl, ?_, ?_, ?_⟩
  · rw [Markup.tags, Markup.tags, hread, hread]
  · rw [Closed, hread]
  · rw [Closed, hread]

/-- Literal markup that ends outside tags. -/
theorem html {l : List Char} (h : (tagsFrom .text (l.flatMap Utf8.encode)).2 = .text) :
    Alike [Markup.html (String.ofList l)] [Markup.html (String.ofList l)] := by
  apply same
  show (tagsFrom .text (utf8 (String.ofList l) ++ [])).2 = .text
  rwa [List.append_nil, utf8_ofList]

/-- Literal markup with a text behind it. -/
theorem hole {l : List Char} {ps qs : List Piece} {s t : Bytes}
    (h : (tagsFrom .text (l.flatMap Utf8.encode)).2 = .text) (behind : Alike ps qs) :
    Alike (Markup.html (String.ofList l) :: .text s :: ps)
      (Markup.html (String.ofList l) :: .text t :: qs) :=
  (html h).append ((text s t).append behind)

theorem flatMap {α β : Type} {f : α → List Piece} {g : β → List Piece} {as : List α} {bs : List β}
    (h : List.Forall₂ (fun a b => Alike (f a) (g b)) as bs) :
    Alike (as.flatMap f) (bs.flatMap g) := by
  induction h with
  | nil => exact nil
  | cons hfirst _ ih => exact hfirst.append ih

/-- A table with a row for each item, and something else if there are none. -/
theorem rows {α β : Type} {f : α → List Piece} {g : β → List Piece} {as : List α} {bs : List β}
    (h : List.Forall₂ (fun a b => Alike (f a) (g b)) as bs) {nothing start stop : List Piece}
    (hnothing : Closed nothing) (hstart : Closed start) (hstop : Closed stop) :
    Alike (if as.isEmpty then nothing else start ++ as.flatMap f ++ stop)
      (if bs.isEmpty then nothing else start ++ bs.flatMap g ++ stop) := by
  cases h with
  | nil => exact same hnothing
  | cons hfirst hmore =>
    exact ((same hstart).append (flatMap (.cons hfirst hmore))).append (same hstop)

end Alike

end Markup

end Reckoner
