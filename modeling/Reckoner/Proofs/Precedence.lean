import Reckoner.Proofs.Spellings
import Reckoner.Settings.Load

/-!
# Reckoner.Proofs.Precedence — which of its sources a setting comes from

A file and an environment both come to an assignment, which names some of the fields and leaves out
the others (`FileSays`, `Environment.Says`). What a file comes to is said by the decoder, which may
be any. An environment that can be read does to the settings what its assignment does
(`applyEnvironment_eq_overlay`). One that cannot has a first variable that is refused; what happens
up to there is what happens in the environment that has only the variables in front of it
(`applyVariables_only`), so the same lemma tells what has been applied
(`applyEnvironment_of_refuses`).

Main statement: `load_exact`.
-/

namespace Reckoner

/-! ## Environments -/

namespace Environment

/-- The environment in which only the variables of these names are set. -/
def only (env : Environment) (names : List Bytes) : Environment :=
  env.filter fun v => v.1 ∈ names

variable {env : Environment} {names : List Bytes} {name : Bytes}

theorem lookup_only :
    (env.only names).lookup name = if name ∈ names then env.lookup name else none := by
  induction env with
  | nil => simp [only]
  | cons v rest ih =>
    simp only [only, List.filter_cons] at ih ⊢
    by_cases hv : v.1 ∈ names <;> by_cases hname : name = v.1 <;> grind

theorem value?_only_of_mem (h : name ∈ names) :
    (env.only names).value? name = env.value? name := by
  rw [value?, value?, lookup_only, if_pos h]

theorem value?_only_of_not_mem (h : name ∉ names) : (env.only names).value? name = none := by
  rw [value?, lookup_only, if_neg h]

open Number (IsInteger IsSwitch)

/-- `env.Says a`: each variable that is set can be read, and `a` is what they assign. Prompt and
history file have no variable. -/
structure Says (env : Environment) (a : Settings.Assignment) : Prop where
  host : a.host = env.value? (utf8 "HOST")
  port : Option.Rel IsInteger (env.value? (utf8 "PORT")) a.port
  grpcPort : Option.Rel IsInteger (env.value? (utf8 "GRPC_PORT")) a.grpcPort
  historySize : Option.Rel IsInteger (env.value? (utf8 "GOLOX_HISTORY_SIZE")) a.historySize
  trace : Option.Rel IsSwitch (env.value? (utf8 "GOLOX_TRACE")) a.trace
  prompt : a.prompt = none
  historyFile : a.historyFile = none

/-- The variables that hold an integer. -/
def integerNames : List Bytes := ["PORT", "GRPC_PORT", "GOLOX_HISTORY_SIZE"].map utf8

/-- The variable is set to a text that it cannot hold. -/
def Refuses (env : Environment) (name : Bytes) : Prop :=
  ∃ text ∈ env.value? name,
    name ∈ integerNames ∧ (∀ n, ¬IsInteger text n) ∨
      name = utf8 "GOLOX_TRACE" ∧ ∀ b, ¬IsSwitch text b

theorem Refuses.of_only (h : (env.only names).Refuses name) : name ∈ names ∧ env.Refuses name := by
  obtain ⟨text, htext, hrefused⟩ := h
  by_cases hname : name ∈ names
  · rw [value?_only_of_mem hname] at htext
    exact ⟨hname, text, htext, hrefused⟩
  · rw [value?_only_of_not_mem hname] at htext
    cases htext

end Environment

namespace Settings

/-- The names of the variables that count, in the order in which they are applied. -/
def variableNames : List Bytes :=
  ["HOST", "PORT", "GRPC_PORT", "GOLOX_HISTORY_SIZE", "GOLOX_TRACE"].map utf8

/-- `s.Follows base a`: each field of `s` is the one that is assigned, if it is, and else that of
`base`. -/
structure Follows (s base : Settings) (a : Assignment) : Prop where
  host : s.host = a.host.getD base.host
  port : s.port = a.port.getD base.port
  grpcPort : s.grpcPort = a.grpcPort.getD base.grpcPort
  historySize : s.historySize = a.historySize.getD base.historySize
  trace : s.trace = a.trace.getD base.trace
  prompt : s.prompt = a.prompt.getD base.prompt
  historyFile : s.historyFile = a.historyFile.getD base.historyFile

theorem follows_iff {s base : Settings} {a : Assignment} :
    s.Follows base a ↔ s = base.overlay a := by
  constructor
  · rintro ⟨hhost, hport, hgrpc, hsize, htrace, hprompt, hfile⟩
    cases s
    simp_all [overlay]
  · rintro rfl
    exact ⟨rfl, rfl, rfl, rfl, rfl, rfl, rfl⟩

/-! ## Variables one after the other -/

section
variable {env : Environment} {s s' : Settings} {v : Variable} {before after : List Variable}

theorem applyVariables_unset (h : env.value? (utf8 v.name) = none) :
    applyVariables env s (v :: after) = applyVariables env s after := by
  simp only [applyVariables, h]

theorem applyVariables_accepted {text : Bytes} (h : env.value? (utf8 v.name) = some text)
    (hput : v.put s text = .ok s') :
    applyVariables env s (v :: after) = applyVariables env s' after := by
  simp only [applyVariables, h, hput]

theorem applyVariables_refused {text : Bytes} {f : Fault}
    (h : env.value? (utf8 v.name) = some text) (hput : v.put s text = .error f) :
    applyVariables env s (v :: after) = (s, some f) := by
  simp only [applyVariables, h, hput]

/-- What is applied without a refusal is applied to what comes in front. -/
theorem applyVariables_append (h : applyVariables env s before = (s', none)) :
    applyVariables env s (before ++ after) = applyVariables env s' after := by
  induction before generalizing s with
  | nil =>
    cases h
    rfl
  | cons v rest ih =>
    simp only [List.cons_append, applyVariables] at h ⊢
    split at h
    · exact ih h
    · split at h
      · exact ih h
      · cases h

theorem applyVariables_append_unset (h : ∀ v ∈ after, env.value? (utf8 v.name) = none) :
    applyVariables env s (before ++ after) = applyVariables env s before := by
  induction before generalizing s with
  | nil =>
    induction after with
    | nil => rfl
    | cons v rest ih =>
      obtain ⟨hv, hrest⟩ := List.forall_mem_cons.1 h
      exact (applyVariables_unset hv).trans (ih hrest)
  | cons v rest ih => simp only [List.cons_append, applyVariables, ih]

theorem applyVariables_congr {env' : Environment} {vars : List Variable}
    (h : ∀ v ∈ vars, env.value? (utf8 v.name) = env'.value? (utf8 v.name)) :
    applyVariables env s vars = applyVariables env' s vars := by
  induction vars generalizing s with
  | nil => rfl
  | cons v rest ih =>
    obtain ⟨hv, hrest⟩ := List.forall_mem_cons.1 h
    simp only [applyVariables, hv, ih hrest]

/-- **Variables that are not looked at do not count.** Applying some variables is the same as
applying all of them in an environment that has only those. -/
theorem applyVariables_only {names : List Bytes} (hbefore : ∀ v ∈ before, utf8 v.name ∈ names)
    (hafter : ∀ v ∈ after, utf8 v.name ∉ names) :
    applyVariables env s before = applyVariables (env.only names) s (before ++ after) := by
  rw [applyVariables_append_unset fun v hv => Environment.value?_only_of_not_mem (hafter v hv)]
  exact applyVariables_congr fun v hv => (Environment.value?_only_of_mem (hbefore v hv)).symm

/-- A variable that can be read, if it is set at all, assigns its field. -/
theorem applyVariables_reads {α : Type} {Reads : Bytes → α → Prop} {a : Option α}
    (get : Settings → α) (set : Settings → α → Settings) (hget : set s (get s) = s)
    (hput : ∀ text a, Reads text a → v.put s text = .ok (set s a))
    (h : Option.Rel Reads (env.value? (utf8 v.name)) a) :
    applyVariables env s (v :: after) = applyVariables env (set s (a.getD (get s))) after := by
  generalize hvalue : env.value? (utf8 v.name) = value at h
  cases h with
  | some hreads => exact applyVariables_accepted hvalue (hput _ _ hreads)
  | none =>
    rw [Option.getD_none, hget]
    exact applyVariables_unset hvalue

end

/-! ## The environment -/

theorem put_intVariable {name : String} {set : Settings → Int → Settings} {s : Settings}
    (text : Bytes) (n : Int) (h : Number.IsInteger text n) :
    (intVariable name set).put s text = .ok (set s n) := by
  simp only [intVariable, Number.readInt_eq_ok_iff.2 h]

/-- **An environment that can be read assigns what it says.** -/
theorem applyEnvironment_eq_overlay {env : Environment} {a : Assignment} (h : env.Says a)
    (s : Settings) : s.applyEnvironment env = (s.overlay a, none) := by
  have hhost : Option.Rel Eq (env.value? (utf8 "HOST")) a.host := by
    rw [h.host]
    cases env.value? (utf8 "HOST") with
    | none => exact .none
    | some text => exact .some rfl
  -- each variable in turn assigns its field, to settings that keep all the others
  rw [applyEnvironment, knownVariables,
    applyVariables_reads host (fun s t => { s with host := t }) rfl
      (fun _ _ heq => by rw [heq]) hhost,
    applyVariables_reads port (fun s n => { s with port := n }) rfl put_intVariable h.port,
    applyVariables_reads grpcPort (fun s n => { s with grpcPort := n }) rfl put_intVariable
      h.grpcPort,
    applyVariables_reads historySize (fun s n => { s with historySize := n }) rfl put_intVariable
      h.historySize,
    applyVariables_reads trace (fun s b => { s with trace := b }) rfl
      (fun _ _ hswitch => by simp only [Number.readSwitch_eq_ok_iff.2 hswitch]) h.trace]
  simp only [applyVariables, overlay, h.prompt, h.historyFile, Option.getD_none]

theorem exists_rel {α β : Type} {r : α → β → Prop} {o : Option α} (h : ∀ a ∈ o, ∃ b, r a b) :
    ∃ o', Option.Rel r o o' := by
  cases o with
  | none => exact ⟨none, .none⟩
  | some a =>
    obtain ⟨b, hb⟩ := h a rfl
    exact ⟨some b, .some hb⟩

/-- An environment in which nothing is refused can be read. -/
theorem exists_assignment {env : Environment} (h : ∀ name ∈ variableNames, ¬env.Refuses name) :
    ∃ a, env.Says a := by
  have hknown : ∀ name ∈ Environment.integerNames, name ∈ variableNames := by decide
  have hint : ∀ name ∈ Environment.integerNames,
      ∃ n, Option.Rel Number.IsInteger (env.value? name) n := fun name hname =>
    exists_rel fun text htext => Classical.byContradiction fun hnone =>
      h name (hknown name hname) ⟨text, htext, .inl ⟨hname, not_exists.1 hnone⟩⟩
  obtain ⟨port, hport⟩ := hint (utf8 "PORT") (by decide)
  obtain ⟨grpcPort, hgrpc⟩ := hint (utf8 "GRPC_PORT") (by decide)
  obtain ⟨size, hsize⟩ := hint (utf8 "GOLOX_HISTORY_SIZE") (by decide)
  obtain ⟨trace, htrace⟩ : ∃ b, Option.Rel Number.IsSwitch (env.value? (utf8 "GOLOX_TRACE")) b :=
    exists_rel fun text htext => Classical.byContradiction fun hnone =>
      h _ (by decide) ⟨text, htext, .inr ⟨rfl, not_exists.1 hnone⟩⟩
  exact ⟨⟨env.value? (utf8 "HOST"), port, grpcPort, size, trace, none, none⟩,
    rfl, hport, hgrpc, hsize, htrace, rfl, rfl⟩

theorem put_intVariable_eq_error {text : Bytes} (h : ∀ n, ¬Number.IsInteger text n)
    (name : String) (set : Settings → Int → Settings) :
    ∃ fault, ∀ s, (intVariable name set).put s text = .error (.wrapped (utf8 name) fault) := by
  cases hread : Number.readInt text with
  | ok n => exact absurd (Number.readInt_eq_ok_iff.1 hread) (h n)
  | error r => exact ⟨.plain (r.message "Atoi" text), fun s => by simp only [intVariable, hread]⟩

/-- A variable that is refused is named in the fault, whatever the settings are. -/
theorem exists_put_eq_error {env : Environment} {v : Variable} (hv : v ∈ knownVariables)
    (h : env.Refuses (utf8 v.name)) :
    ∃ text fault, env.value? (utf8 v.name) = some text ∧
      ∀ s, v.put s text = .error (.wrapped (utf8 v.name) fault) := by
  obtain ⟨text, htext, hrefused⟩ := h
  have hinteger : ∀ name set, v = intVariable name set → utf8 name ≠ utf8 "GOLOX_TRACE" →
      ∃ fault, ∀ s, v.put s text = .error (.wrapped (utf8 v.name) fault) := by
    rintro name set rfl hname
    obtain ⟨-, hnone⟩ | ⟨htrace, -⟩ := hrefused
    · exact put_intVariable_eq_error hnone name set
    · exact absurd htrace hname
  suffices hfault : ∃ fault, ∀ s, v.put s text = .error (.wrapped (utf8 v.name) fault) by
    obtain ⟨fault, hfault⟩ := hfault
    exact ⟨text, fault, htext, hfault⟩
  simp only [knownVariables, List.mem_cons, List.not_mem_nil, or_false] at hv
  rcases hv with rfl | rfl | rfl | rfl | rfl
  · obtain ⟨hmem, -⟩ | ⟨heq, -⟩ := hrefused
    · exact absurd hmem (by decide)
    · exact absurd heq (by decide)
  · exact hinteger _ _ rfl (by decide)
  · exact hinteger _ _ rfl (by decide)
  · exact hinteger _ _ rfl (by decide)
  · obtain ⟨hmem, -⟩ | ⟨-, hnone⟩ := hrefused
    · exact absurd hmem (by decide)
    · cases hread : Number.readSwitch text with
      | ok b => exact absurd (Number.readSwitch_eq_ok_iff.1 hread) (hnone b)
      | error r => exact ⟨.plain (r.message "ParseBool" text), fun s => by simp only [hread]⟩

/-- **The first variable that is refused ends it.** What the variables in front of it say is
assigned, as if no others were set. -/
theorem applyEnvironment_of_refuses {env : Environment} {before after : List Bytes} {name : Bytes}
    (hnames : variableNames = before ++ name :: after) (hrefused : env.Refuses name)
    (hbefore : ∀ n ∈ before, ¬env.Refuses n) :
    ∃ a fault, (env.only before).Says a ∧
      ∀ s : Settings,
        s.applyEnvironment env = (s.overlay a, some (.wrapped name fault)) := by
  -- the split of the names is one of the variables
  have hknown : knownVariables.map (fun v => utf8 v.name) = before ++ name :: after := hnames
  obtain ⟨vars, rest, hvars, hmap, hrest⟩ := List.map_eq_append_iff.1 hknown
  obtain ⟨v, others, rfl, rfl, rfl⟩ := List.map_eq_cons_iff.1 hrest
  have hfront : ∀ w ∈ vars, utf8 w.name ∈ before := fun w hw =>
    hmap ▸ List.mem_map.2 ⟨w, hw, rfl⟩
  have hback : ∀ w ∈ v :: others, utf8 w.name ∉ before := by
    intro w hw hmem
    have hdistinct : variableNames.Nodup := by decide
    rw [hnames, List.nodup_append] at hdistinct
    exact hdistinct.2.2 _ hmem _ (List.mem_map_of_mem (f := fun v => utf8 v.name) hw) rfl
  -- nothing is refused where only the variables in front are set
  obtain ⟨a, ha⟩ : ∃ a, (env.only before).Says a := exists_assignment fun n _ hn =>
    hbefore n hn.of_only.1 hn.of_only.2
  obtain ⟨text, fault, htext, hput⟩ :=
    exists_put_eq_error (hvars ▸ List.mem_append_right vars List.mem_cons_self) hrefused
  refine ⟨a, fault, ha, fun s => ?_⟩
  have happlied : applyVariables env s vars = (s.overlay a, none) := by
    rw [applyVariables_only hfront hback, ← hvars]
    exact applyEnvironment_eq_overlay ha s
  rw [applyEnvironment, hvars, applyVariables_append happlied]
  exact applyVariables_refused htext (hput _)

/-- Where a variable is refused, one is the first. -/
theorem exists_first_refused {env : Environment} (h : ∃ name ∈ variableNames, env.Refuses name) :
    ∃ before name after, variableNames = before ++ name :: after ∧ env.Refuses name ∧
      ∀ n ∈ before, ¬env.Refuses n := by
  classical
  obtain ⟨name, hname, hrefused⟩ := h
  have hfound : (variableNames.find? fun n => env.Refuses n).isSome = true :=
    List.find?_isSome.2 ⟨name, hname, decide_eq_true hrefused⟩
  obtain ⟨first, hfirst⟩ := Option.isSome_iff_exists.1 hfound
  obtain ⟨hfirst, before, after, hnames, hbefore⟩ := List.find?_eq_some_iff_append.1 hfirst
  exact ⟨before, first, after, hnames, of_decide_eq_true hfirst, fun n hn => by
    simpa using hbefore n hn⟩

theorem applyEnvironment_eq_none_iff {env : Environment} {s s' : Settings} :
    s.applyEnvironment env = (s', none) ↔ ∃ a, env.Says a ∧ s' = s.overlay a := by
  constructor
  · intro h
    obtain ⟨a, ha⟩ : ∃ a, env.Says a := by
      refine exists_assignment fun name hname hrefused => ?_
      obtain ⟨before, first, after, hnames, hfirst, hbefore⟩ :=
        exists_first_refused ⟨name, hname, hrefused⟩
      obtain ⟨_, _, -, hfails⟩ := applyEnvironment_of_refuses hnames hfirst hbefore
      rw [hfails s] at h
      cases h
    rw [applyEnvironment_eq_overlay ha s] at h
    cases h
    exact ⟨a, ha, rfl⟩
  · rintro ⟨a, ha, rfl⟩
    exact applyEnvironment_eq_overlay ha s

/-! ## Files -/

section
variable (decode : Assignment.Decoder)

/-- `FileSays decode files path a`: the file can be read and decoded, and assigns `a`. No path is no
file, which assigns nothing. -/
def FileSays (files : Files) (path : Bytes) (a : Assignment) : Prop :=
  path = [] ∧ a = {} ∨
    path ≠ [] ∧ ∃ content, files.read path = .ok content ∧ decode content = (a, none)

theorem ofFile_eq_none_iff {files : Files} {path : Bytes} {s : Settings} :
    ofFile decode files path = (s, none) ↔
      ∃ a, FileSays decode files path a ∧ s = default.overlay a := by
  unfold ofFile FileSays
  cases path with
  | nil =>
    constructor
    · rintro ⟨⟩
      exact ⟨{}, .inl ⟨rfl, rfl⟩, rfl⟩
    · rintro ⟨a, ⟨-, rfl⟩ | ⟨hne, -⟩, rfl⟩
      · rfl
      · exact absurd rfl hne
  | cons b rest =>
    cases hread : files.read (b :: rest) with
    | error f => simp
    | ok content =>
      rcases hassigned : decode content with ⟨a, problem⟩
      simp only [List.isEmpty_cons, overlayFile, hassigned]
      cases problem <;> grind

end

/-- The settings can be used. -/
structure Usable (s : Settings) : Prop where
  port : 1 ≤ s.port ∧ s.port ≤ 65535
  grpcPort : 1 ≤ s.grpcPort ∧ s.grpcPort ≤ 65535
  historySize : 1 ≤ s.historySize

theorem check_eq_none_iff {s : Settings} : s.check = none ↔ s.Usable := by
  have hport : ∀ n, isPort n = true ↔ 1 ≤ n ∧ n ≤ 65535 := by
    intro n
    simp only [isPort, Bool.and_eq_true, decide_eq_true_eq]
    omega
  constructor
  · intro h
    simp only [check, Bool.not_eq_true'] at h
    split at h
    · cases h
    · next hfirst =>
      split at h
      · cases h
      · next hsecond =>
        split at h
        · cases h
        · next hsize =>
          exact ⟨(hport _).1 (by simpa using hfirst), (hport _).1 (by simpa using hsecond),
            by omega⟩
  · rintro ⟨hfirst, hsecond, hsize⟩
    have hpositive : ¬s.historySize ≤ 0 := by omega
    simp [check, (hport _).2 hfirst, (hport _).2 hsecond, hpositive]

/-! ## All sources together -/

section
variable (decode : Assignment.Decoder)

theorem load_eq_none_iff {files : Files} {env : Environment} {path : Bytes} {s : Settings} :
    load decode files env path = (s, none) ↔
      ∃ base, ofFile decode files path = (base, none) ∧ base.applyEnvironment env = (s, none) ∧
        s.check = none := by
  unfold load
  rcases ofFile decode files path with ⟨base, _ | f⟩
  · rcases henv : base.applyEnvironment env with ⟨s', _ | f⟩ <;> grind
  · simp

/-- **Each setting comes from the last of its sources that sets it**, however files are decoded.
Loading succeeds just if the file can be read and decoded, if there is a path, the variables that are
set can be read, and the settings can be used. A field is then what its variable says, else what the
file assigns, else the default; the prompt and the history file have no variable. Where a variable is
refused, the first such one ends it: those in front of it are applied, as if no others were set. -/
theorem load_exact (files : Files) (env : Environment) (path : Bytes) :
    (∀ s, load decode files env path = (s, none) ↔
      ∃ a b base, FileSays decode files path a ∧ env.Says b ∧
        Follows base default a ∧ Follows s base b ∧ s.Usable) ∧
    ((∃ name ∈ variableNames, env.Refuses name) →
      ∃ before name after, variableNames = before ++ name :: after ∧ env.Refuses name ∧
        (∀ n ∈ before, ¬env.Refuses n) ∧
        ∃ b fault, (env.only before).Says b ∧
          ∀ base s, Follows s base b →
            base.applyEnvironment env = (s, some (.wrapped name fault)) ∧
            ∀ a, FileSays decode files path a → Follows base default a →
              load decode files env path = (s, some (.wrapped name fault))) := by
  simp only [follows_iff]
  constructor
  · intro s
    simp only [load_eq_none_iff, ofFile_eq_none_iff, applyEnvironment_eq_none_iff,
      check_eq_none_iff]
    constructor
    · rintro ⟨base, ⟨a, ha, hbase⟩, ⟨b, hb, hs⟩, husable⟩
      exact ⟨a, b, base, ha, hb, hbase, hs, husable⟩
    · rintro ⟨a, b, base, ha, hb, hbase, hs, husable⟩
      exact ⟨base, ⟨a, ha, hbase⟩, ⟨b, hb, hs⟩, husable⟩
  · intro h
    obtain ⟨before, name, after, hnames, hrefused, hbefore⟩ := exists_first_refused h
    obtain ⟨b, fault, hb, hfails⟩ := applyEnvironment_of_refuses hnames hrefused hbefore
    refine ⟨before, name, after, hnames, hrefused, hbefore, b, fault, hb, ?_⟩
    rintro base s rfl
    refine ⟨hfails base, fun a ha hbase => ?_⟩
    rw [load, (ofFile_eq_none_iff decode).2 ⟨a, ha, hbase⟩]
    simp only [hfails base]

end

/-- A port in the file and in the environment, a switch in the file only, and a variable that is set
to nothing. With a variable that cannot be read, loading fails. -/
theorem load_exact_port :
    let files : Files :=
      ⟨fun _ => .ok (utf8 "port: 1\ntrace: true\n"), fun _ => .ok [], fun _ => false⟩
    let path := utf8 "settings.yaml"
    let env : Environment := [(utf8 "PORT", utf8 "+9000"), (utf8 "GOLOX_HISTORY_SIZE", [])]
    let more : Environment := (utf8 "GRPC_PORT", utf8 "x") :: env
    let decode := Assignment.ofYaml
    load decode files env path = ({ port := 9000, trace := true }, none) ∧
      ∃ name s fault, more.Refuses name ∧
        load decode files more path = (s, some (.wrapped name fault)) := by
  intro files path env more decode
  have hread : decode (utf8 "port: 1\ntrace: true\n")
      = ({ port := some 1, trace := some true }, none) :=
    Prod.ext (by decide +kernel) (Option.isNone_iff_eq_none.1 (by decide +kernel))
  have hfile : FileSays decode files path { port := some 1, trace := some true } :=
    .inr ⟨by decide, _, rfl, hread⟩
  have hport : Number.IsInteger (utf8 "+9000") 9000 := Number.readInt_eq_ok_iff.1 rfl
  have hgrpc : ∀ n, ¬Number.IsInteger (utf8 "x") n := by
    intro n hn
    have hmisspelt : Number.readInt (utf8 "x") = .error .misspelt := rfl
    rw [Number.readInt_eq_ok_iff.2 hn] at hmisspelt
    cases hmisspelt
  refine ⟨((load_exact decode files env path).1 _).2 ⟨_, { port := some 9000 },
    { port := 1, trace := true }, hfile, ⟨rfl, .some hport, .none, .none, .none, rfl, rfl⟩,
    ⟨rfl, rfl, rfl, rfl, rfl, rfl, rfl⟩, ⟨rfl, rfl, rfl, rfl, rfl, rfl, rfl⟩,
    by decide, by decide, by decide⟩, ?_⟩
  obtain ⟨_, name, _, -, hrefused, -, b, fault, -, hfails⟩ := (load_exact decode files more path).2
    ⟨utf8 "GRPC_PORT", by decide, utf8 "x", rfl, .inl ⟨by decide, hgrpc⟩⟩
  have hbase : Follows { port := 1, trace := true } default
      { port := some 1, trace := some true } :=
    ⟨rfl, rfl, rfl, rfl, rfl, rfl, rfl⟩
  exact ⟨name, _, fault, hrefused, (hfails _ _ (follows_iff.2 rfl)).2 _ hfile hbase⟩

end Settings

end Reckoner
