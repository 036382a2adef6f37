import Mathlib.Data.List.TakeWhile
import Reckoner.Command.Run
import Reckoner.Proofs.Precedence

/-!
# Reckoner.Proofs.Explicit — what flags that are given do to the settings

A command line that can be read gives every flag a value of the flag's type
(`typed_of_readArguments`), so the flags of serving come to an assignment (`exists_assigns`).
Whether a flag is given is told from its value, and a flag that is not given has the value zero or
the empty text. So a flag that is given these does not count: the settings follow the assignment
without its zeros (`follows_withServeFlags`), which differs from the assignment itself just where a
zero would have changed a field (`follows_iff_of_withoutZeros`).

Main statement: `applyServeFlags_exact`.
-/

namespace Reckoner.Command

/-! ## Flags and their types -/

/-- The type that a value belongs to. -/
def FlagValue.type : FlagValue → FlagType
  | text _ => .text
  | int _ => .int
  | switch _ => .switch

theorem FlagValue.exists_text (v : FlagValue) (h : v.type = .text) : ∃ s, text s = v := by
  cases v with
  | text s => exact ⟨s, rfl⟩
  | int n => cases h
  | switch b => cases h

theorem FlagValue.exists_int (v : FlagValue) (h : v.type = .int) : ∃ n, int n = v := by
  cases v with
  | int n => exact ⟨n, rfl⟩
  | text s => cases h
  | switch b => cases h

theorem Flag.type_of_read {f : Flag} {value : Bytes} {v : FlagValue} (h : f.read value = .ok v) :
    v.type = f.type := by
  unfold read at h
  split at h
  · next htype =>
    cases h
    exact htype.symm
  · next htype =>
    split at h <;> cases h
    exact htype.symm
  · next htype =>
    split at h <;> cases h
    exact htype.symm

namespace Arguments

/-- Every flag that is given is one of these, with a value of its type. -/
def Typed (flags : List Flag) (a : Arguments) : Prop :=
  ∀ p ∈ a.given, ∃ f ∈ flags, f.name = p.1 ∧ p.2.type = f.type

variable {flags : List Flag} {a a' : Arguments}

theorem Typed.put {f : Flag} {value : Bytes} (ha : a.Typed flags) (hf : f ∈ flags)
    (h : a.put f value = .ok a') : a'.Typed flags := by
  unfold Arguments.put at h
  cases hread : f.read value with
  | error t =>
    rw [hread] at h
    cases h
  | ok v =>
    rw [hread] at h
    cases h
    exact List.forall_mem_cons.2 ⟨⟨f, hf, rfl, Flag.type_of_read hread⟩, ha⟩

end Arguments

theorem exists_of_bind_eq_ok {ε α β : Type} {x : Except ε α} {f : α → Except ε β} {b : β}
    (h : (x >>= f) = .ok b) : ∃ a, x = .ok a ∧ f a = .ok b := by
  cases x with
  | error e => cases h
  | ok a => exact ⟨a, rfl, h⟩

variable {flags : List Flag} {a a' : Arguments}

theorem typed_of_readLetters {next : Option Bytes} {letters : Bytes} {taken : Bool}
    (h : readLetters flags a next letters = .ok (a', taken)) (ha : a.Typed flags) :
    a'.Typed flags := by
  induction letters generalizing a with
  | nil =>
    cases h
    exact ha
  | cons letter rest ih =>
    simp only [readLetters] at h
    split at h
    · cases h
      exact ha
    · split at h
      · cases h
      · next f hf =>
        have hmem := List.mem_of_find?_eq_some hf
        -- a value behind the letter ends the letters, wherever it stands
        have hlast : ∀ (value : Bytes) (t : Bool),
            (a.put f value >>= fun b => pure (b, t)) = .ok (a', taken) → a'.Typed flags := by
          intro value t hbind
          obtain ⟨b, hb, hpure⟩ := exists_of_bind_eq_ok hbind
          cases hpure
          exact ha.put hmem hb
        split at h
        · exact hlast _ _ h
        · split at h
          · obtain ⟨b, hb, hrest⟩ := exists_of_bind_eq_ok h
            exact ih hrest (ha.put hmem hb)
          · split at h
            · exact hlast _ _ h
            · split at h
              · exact hlast _ _ h
              · cases h

/-- A flag with its value in the next argument. -/
theorem readArguments_value {f : Flag} {v : FlagValue} {b : UInt8} {name value : Bytes}
    (hf : findFlag? flags (b :: name) = some f) (hb : b ≠ 45) (hname : 61 ∉ b :: name)
    (htype : f.type ≠ .switch) (hread : f.read value = .ok v) (rest : List Bytes) :
    readArguments flags a ((45 :: 45 :: b :: name) :: value :: rest)
      = readArguments flags { a with given := (f.name, v) :: a.given } rest := by
  have hwhole : (b :: name).takeWhile (· ≠ 61) = b :: name :=
    List.takeWhile_eq_self_iff.2 fun x hx => decide_eq_true fun heq => hname (heq ▸ hx)
  have hsign : b ≠ 61 := fun h => hname (h ▸ List.mem_cons_self)
  have hcontains : (b :: name).contains 61 = false := by simpa using hname
  rw [readArguments]
  simp only [hwhole, hf]
  simp only [hcontains, htype, Arguments.put, hread, List.isEmpty_cons, List.head?_cons,
    Option.some.injEq, hb, hsign]
  rfl

/-- **Reading a command line keeps flags and types together.** -/
theorem typed_of_readArguments {args : List Bytes} (h : readArguments flags a args = .ok a')
    (ha : a.Typed flags) : a'.Typed flags := by
  induction hlength : args.length using Nat.strongRecOn generalizing a args with
  | _ n ih =>
    cases args with
    | nil =>
      cases h
      exact ha
    | cons arg rest =>
      -- a flag may take the next argument too, so what is left is some shorter command line
      have hleft : ∀ (b : Arguments) (left : List Bytes), left.length ≤ rest.length →
          b.Typed flags → readArguments flags b left = .ok a' → a'.Typed flags := by
        intro b left hle hb hread
        refine ih left.length ?_ hread hb rfl
        rw [← hlength, List.length_cons]
        omega
      rw [readArguments.eq_def] at h
      dsimp only at h
      split at h
      · split at h
        · cases h
          exact ha
        · split at h
          · cases h
          · split at h
            · cases h
            · next f hf =>
              have hput : ∀ (value : Bytes) (left : List Bytes), left.length ≤ rest.length →
                  (a.put f value >>= fun b => readArguments flags b left) = .ok a' →
                  a'.Typed flags := by
                intro value left hle hbind
                obtain ⟨b, hb, hrest⟩ := exists_of_bind_eq_ok hbind
                exact hleft b left hle (ha.put (List.mem_of_find?_eq_some hf) hb) hrest
              split at h
              · exact hput _ _ (Nat.le_refl _) h
              · split at h
                · exact hput _ _ (Nat.le_refl _) h
                · split at h
                  · exact hput _ _ (Nat.le_succ _) h
                  · cases h
      · obtain ⟨⟨b, taken⟩, hb, hrest⟩ := exists_of_bind_eq_ok h
        have htyped := typed_of_readLetters hb ha
        split at hrest
        · cases hrest
          exact htyped
        · split at hrest
          · exact hleft b _ (Nat.le_succ _) htyped hrest
          · exact hleft b _ (Nat.le_refl _) htyped hrest
      · exact hleft { a with words := arg :: a.words } rest (Nat.le_refl _) ha h

/-! ## What flags assign -/

namespace Arguments

/-- `a.Assigns g`: the flags of serving that are given assign `g`, each one its field. -/
structure Assigns (a : Arguments) (g : Settings.Assignment) : Prop where
  host : a.given.lookup "host" = g.host.map .text
  port : a.given.lookup "port" = g.port.map .int
  grpcPort : a.given.lookup "grpc-port" = g.grpcPort.map .int
  historySize : a.given.lookup "history-size" = g.historySize.map .int
  trace : g.trace = none
  prompt : g.prompt = none
  historyFile : g.historyFile = none

theorem Typed.lookup {name : String} {v : FlagValue} (ha : a.Typed flags)
    (h : a.given.lookup name = some v) : ∃ f ∈ flags, f.name = name ∧ v.type = f.type := by
  obtain ⟨front, back, hgiven, -⟩ := List.lookup_eq_some_iff.1 h
  exact ha (name, v) (by simp [hgiven])

/-- What is given of a flag is nothing or a value of the flag's type. -/
theorem Typed.exists_map {α : Type} {wrap : α → FlagValue} {type : FlagType} (ha : a.Typed flags)
    (hwrap : ∀ v : FlagValue, v.type = type → ∃ x, wrap x = v) (name : String)
    (hname : ∀ f ∈ flags, f.name = name → f.type = type) :
    ∃ o : Option α, a.given.lookup name = o.map wrap := by
  cases hlookup : a.given.lookup name with
  | none => exact ⟨none, rfl⟩
  | some v =>
    obtain ⟨f, hf, heq, htype⟩ := ha.lookup hlookup
    obtain ⟨x, rfl⟩ := hwrap v (htype.trans (hname f hf heq))
    exact ⟨some x, rfl⟩

theorem int_eq {name : String} {n : Option Int} (h : a.given.lookup name = n.map .int) :
    a.int name = n.getD 0 := by
  rw [int, h]
  cases n <;> rfl

theorem text_eq {name : String} {s : Option Bytes} (h : a.given.lookup name = s.map .text) :
    a.text name = s.getD [] := by
  rw [text, h]
  cases s <;> rfl

end Arguments

/-- The flags of a command line for serving assign something. -/
theorem exists_assigns {args : List Bytes}
    (h : readArguments Subcommand.serve.flags {} args = .ok a) : ∃ g, a.Assigns g := by
  have ha : a.Typed Subcommand.serve.flags :=
    typed_of_readArguments h fun p hp => absurd hp List.not_mem_nil
  obtain ⟨host, hhost⟩ := ha.exists_map FlagValue.exists_text "host" (by decide)
  obtain ⟨port, hport⟩ := ha.exists_map FlagValue.exists_int "port" (by decide)
  obtain ⟨grpcPort, hgrpc⟩ := ha.exists_map FlagValue.exists_int "grpc-port" (by decide)
  obtain ⟨size, hsize⟩ := ha.exists_map FlagValue.exists_int "history-size" (by decide)
  exact ⟨⟨host, port, grpcPort, size, none, none, none⟩, hhost, hport, hgrpc, hsize, rfl, rfl, rfl⟩

/-! ## Zeros -/

/-- The assignment without the fields that are assigned zero or the empty text. -/
def withoutZeros (g : Settings.Assignment) : Settings.Assignment :=
  { g with
    host := g.host.filter (· ≠ [])
    port := g.port.filter (· ≠ 0)
    grpcPort := g.grpcPort.filter (· ≠ 0)
    historySize := g.historySize.filter (· ≠ 0) }

theorem replaced_eq {α : Type} [DecidableEq α] (zero field : α) (given : Option α) :
    (if given.getD zero = zero then field else given.getD zero)
      = (given.filter (· ≠ zero)).getD field := by
  cases given with
  | none => simp
  | some v => by_cases hv : v = zero <;> simp [Option.filter, hv]

theorem getD_withoutZeros {given : Option Int} {n field : Int} (h : given = some n) (hn : n ≠ 0) :
    (given.filter (· ≠ 0)).getD field = n := by
  simp [h, Option.filter, hn]

theorem getD_filter_eq_iff {α : Type} [DecidableEq α] (zero field : α) (given : Option α) :
    (given.filter (· ≠ zero)).getD field = given.getD field ↔
      (given = some zero → field = zero) := by
  cases given with
  | none => simp
  | some v => by_cases hv : v = zero <;> simp [Option.filter, hv]

theorem follows_withServeFlags {g : Settings.Assignment} (hg : a.Assigns g) (s : Settings) :
    (withServeFlags s a).Follows s (withoutZeros g) := by
  constructor
  · simp only [withServeFlags, withoutZeros, Arguments.text_eq hg.host, List.isEmpty_iff]
    exact replaced_eq [] s.host g.host
  · simp only [withServeFlags, withoutZeros, Arguments.int_eq hg.port]
    exact replaced_eq 0 s.port g.port
  · simp only [withServeFlags, withoutZeros, Arguments.int_eq hg.grpcPort]
    exact replaced_eq 0 s.grpcPort g.grpcPort
  · simp only [withServeFlags, withoutZeros, Arguments.int_eq hg.historySize]
    exact replaced_eq 0 s.historySize g.historySize
  · simp only [withServeFlags, withoutZeros, hg.trace, Option.getD_none]
  · simp only [withServeFlags, withoutZeros, hg.prompt, Option.getD_none]
  · simp only [withServeFlags, withoutZeros, hg.historyFile, Option.getD_none]

/-- Leaving out zeros makes no difference just if they would not have changed anything. -/
theorem follows_iff_of_withoutZeros {g : Settings.Assignment} {s s' : Settings}
    (h : s'.Follows s (withoutZeros g)) :
    s'.Follows s g ↔
      (g.host = some [] → s.host = []) ∧ (g.port = some 0 → s.port = 0) ∧
      (g.grpcPort = some 0 → s.grpcPort = 0) ∧ (g.historySize = some 0 → s.historySize = 0) := by
  simp only [← getD_filter_eq_iff]
  constructor
  · intro hall
    exact ⟨h.host.symm.trans hall.host, h.port.symm.trans hall.port,
      h.grpcPort.symm.trans hall.grpcPort, h.historySize.symm.trans hall.historySize⟩
  · rintro ⟨hhost, hport, hgrpc, hsize⟩
    exact ⟨h.host.trans hhost, h.port.trans hport, h.grpcPort.trans hgrpc,
      h.historySize.trans hsize, h.trace, h.prompt, h.historyFile⟩

/-- **A flag that is given counts unless its value is zero or empty.** The flags of a command line
for serving assign some fields. Each of these is replaced, apart from those that are assigned zero
or the empty text, and all other fields are kept. It exits, with code 64, just if the settings
cannot be used; so a negative number is always rejected. The settings are those that the flags ask
for just if every zero or empty text that is given met a field that was zero or empty already. -/
theorem applyServeFlags_exact (s : Settings) (args : List Bytes) (a : Arguments)
    (h : readArguments Subcommand.serve.flags {} args = .ok a) :
    ∃ g, a.Assigns g ∧
      let s' := (applyServeFlags s a).1
      let exit := (applyServeFlags s a).2
      s'.Follows s (withoutZeros g) ∧
      (exit = none ↔ s'.Usable) ∧
      (∀ e ∈ exit, e.code = 64) ∧
      ((∃ n < 0, g.port = some n ∨ g.grpcPort = some n ∨ g.historySize = some n) → exit ≠ none) ∧
      (s'.Follows s g ↔
        (g.host = some [] → s.host = []) ∧ (g.port = some 0 → s.port = 0) ∧
        (g.grpcPort = some 0 → s.grpcPort = 0) ∧ (g.historySize = some 0 → s.historySize = 0)) := by
  obtain ⟨g, hg⟩ := exists_assigns h
  refine ⟨g, hg, ?_⟩
  intro s' exit
  have hfollows : s'.Follows s (withoutZeros g) := follows_withServeFlags hg s
  have hexit : exit = none ↔ s'.Usable := by
    rw [← Settings.check_eq_none_iff]
    exact Option.map_eq_none_iff
  refine ⟨hfollows, hexit, ?_, ?_, follows_iff_of_withoutZeros hfollows⟩
  · intro e he
    obtain ⟨f, -, rfl⟩ := Option.map_eq_some_iff.1 he
    rfl
  · rintro ⟨n, hn, hgiven⟩ hnone
    obtain ⟨⟨hport, -⟩, ⟨hgrpc, -⟩, hsize⟩ := hexit.1 hnone
    have hne : n ≠ 0 := by omega
    rcases hgiven with hgiven | hgiven | hgiven
    · have hvalue : s'.port = n := hfollows.port.trans (getD_withoutZeros hgiven hne)
      omega
    · have hvalue : s'.grpcPort = n := hfollows.grpcPort.trans (getD_withoutZeros hgiven hne)
      omega
    · have hvalue : s'.historySize = n := hfollows.historySize.trans (getD_withoutZeros hgiven hne)
      omega

/-- A port that is given as zero is passed over, while a host that is given with it counts. -/
theorem applyServeFlags_exact_host :
    ∃ a g, readArguments Subcommand.serve.flags {}
        [utf8 "--port", utf8 "0", utf8 "--host", utf8 "h"] = .ok a ∧
      a.Assigns g ∧ g.port = some 0 ∧
      (applyServeFlags .default a).1.host = utf8 "h" ∧ (applyServeFlags .default a).1.port = 8787 ∧
      ¬(applyServeFlags .default a).1.Follows .default g := by
  have hread : readArguments Subcommand.serve.flags {}
      [utf8 "--port", utf8 "0", utf8 "--host", utf8 "h"]
        = .ok { given := [("host", .text (utf8 "h")), ("port", .int 0)] } :=
    (readArguments_value (f := ⟨"port", .int, none⟩) rfl (by decide) (by decide) (by decide)
      rfl _).trans
    (readArguments_value (f := ⟨"host", .text, none⟩) rfl (by decide) (by decide) (by decide)
      rfl [])
  obtain ⟨g, hg, hfollows, -, -, -, hexact⟩ := applyServeFlags_exact .default _ _ hread
  have hport : g.port = some 0 := by
    have hgiven : g.port.map FlagValue.int = some (.int 0) := hg.port.symm
    obtain ⟨n, hn, ⟨⟩⟩ := Option.map_eq_some_iff.1 hgiven
    exact hn
  refine ⟨_, g, hread, hg, hport, rfl, rfl, fun hall => ?_⟩
  have hzero := (hexact.1 hall).2.1 hport
  revert hzero
  decide

/-- A port that is given as zero is ignored, where the settings that it makes cannot be used. -/
theorem applyServeFlags_ignores_zero :
    ∃ a g, readArguments Subcommand.serve.flags {} [utf8 "--port", utf8 "0"] = .ok a ∧
      a.Assigns g ∧ g.port = some 0 ∧
      applyServeFlags .default a = (.default, none) ∧
      ∀ s : Settings, s.Follows .default g → ¬s.Usable := by
  refine ⟨{ given := [("port", .int 0)] }, { port := some 0 }, ?_, ?_, rfl, rfl, ?_⟩
  · exact readArguments_value (f := ⟨"port", .int, none⟩) rfl (by decide) (by decide) (by decide)
      rfl []
  · exact ⟨rfl, rfl, rfl, rfl, rfl, rfl, rfl⟩
  · intro s hs husable
    have hport := husable.port.1
    rw [hs.port] at hport
    revert hport
    decide

end Reckoner.Command
