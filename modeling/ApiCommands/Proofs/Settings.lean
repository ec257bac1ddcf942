import ApiCommands.Proofs.Decimal.Reading
import ApiCommands.Proofs.Text.Trimmed
import ApiCommands.Settings

namespace ApiCommands

/-!
# Which setting wins

A flag wins over its variable and a variable over the default. What wins decides alone: whether the
settings are refused and what they are. A variable whose flag is given counts for nothing, even if
what it says could not be read.
-/

namespace Format

theorem parse_eq_ok_iff {text : String} {f : Format} : parse text = .ok f ↔ text = f.name := by
  rw [parse]
  split
  case isTrue h => cases f <;> simp [h, name]
  case isFalse h =>
    split
    case isTrue h => cases f <;> simp [h, name]
    case isFalse h' => cases f <;> simp [h, h', name]

theorem parse_eq_error_iff {text : String} {e : Failure} :
    parse text = .error e ↔
      (text ≠ "json" ∧ text ≠ "yaml") ∧ e = .misuse (.unsupportedFormat text) := by
  rw [parse]
  split
  case isTrue h => simp [h]
  case isFalse h =>
    split
    case isTrue h => simp [h]
    case isFalse h' => simp [h, h', eq_comm]

end Format

namespace Settings

/-- The first text that is there and not empty. -/
def firstText (texts : List (Option String)) : Option String := texts.findSome? Text.unlessEmpty

theorem pick_eq (flag fromEnv : Option String) : pick flag fromEnv = firstText [flag, fromEnv] := by
  rw [pick, firstText, List.findSome?_cons, List.findSome?_singleton]
  cases Text.unlessEmpty flag <;> rfl

theorem firstText_default {default : String} (h : default ≠ "") (flag fromEnv : Option String) :
    firstText [flag, fromEnv, some default] = some ((pick flag fromEnv).getD default) := by
  have hdefault : Text.unlessEmpty (some default) = some default :=
    Text.unlessEmpty_eq_some_iff.mpr ⟨rfl, h⟩
  rw [pick, firstText, List.findSome?_cons, List.findSome?_cons, List.findSome?_singleton, hdefault]
  cases Text.unlessEmpty flag <;> cases Text.unlessEmpty fromEnv <;> rfl

/-- A text spells a number with digits, perhaps after a plus sign, and with blanks around them. -/
def Spells (raw : String) (n : Nat) : Prop :=
  ∃ before numeral after, raw.toList = before ++ numeral ++ after ∧
    (∀ c ∈ before ++ after, Text.isBlank c = true) ∧ Decimal.IsUnsigned numeral n

theorem isBlank_of_isDigit {c : Char} (h : c.isDigit = true) : Text.isBlank c = false := by
  simp only [Char.isDigit, ge_iff_le, Bool.and_eq_true, decide_eq_true_eq,
    UInt32.le_iff_toNat_le] at h
  have hrange : 48 ≤ c.toNat ∧ c.toNat ≤ 57 := h
  simp only [Text.isBlank, Bool.or_eq_false_iff, Bool.and_eq_false_iff, decide_eq_false_iff_not,
    beq_eq_false_iff_ne]
  omega

theorem isBlank_of_isUnsigned {cs : List Char} {n : Nat} (h : Decimal.IsUnsigned cs n) :
    ∀ c ∈ cs, Text.isBlank c = false := by
  obtain ⟨sign, ds, rfl, hsign, -, hdigits, -⟩ := h
  refine List.forall_mem_append.mpr ⟨?_, fun c hc => isBlank_of_isDigit (hdigits c hc)⟩
  rcases hsign with rfl | rfl
  · exact List.forall_mem_nil _
  · exact List.forall_mem_singleton.mpr (by decide)

theorem spells_iff {raw : String} {n : Nat} :
    Spells raw n ↔ Decimal.IsUnsigned (Text.trim raw).toList n := by
  constructor
  · rintro ⟨before, numeral, after, hraw, hblank, hnumeral⟩
    rwa [Text.toList_trim hraw hblank (isBlank_of_isUnsigned hnumeral)]
  · intro h
    obtain ⟨before, after, hraw, hblank⟩ := Text.exists_blanks_trim raw
    exact ⟨before, _, after, hraw, hblank, h⟩

theorem readTimeout_eq_ok_iff {raw : String} {n : Nat} :
    readTimeout raw = .ok n ↔ Spells raw n ∧ n < Nat.pow 2 64 := by
  rw [spells_iff, ← Decimal.readNat_eq_some_iff, readTimeout]
  split
  case h_1 m hm => simp [hm]
  case h_2 hm => simp [hm]

theorem readTimeout_eq_error_iff {raw : String} {e : Failure} :
    readTimeout raw = .error e ↔
      (∀ n < Nat.pow 2 64, ¬Spells raw n) ∧ e = .misuse (.invalidTimeout raw) := by
  have hnone : (∀ n < Nat.pow 2 64, ¬Spells raw n) ↔ ∀ n, readTimeout raw ≠ .ok n := by
    simp only [ne_eq, readTimeout_eq_ok_iff, not_and, imp_not_comm]
  rw [hnone, readTimeout]
  split
  case h_1 m hm => simp
  case h_2 hm => simp [eq_comm]

/-- The format of the flag, else of the variable, else the default. -/
def readOutput (flag fromEnv : Option String) : Outcome Format :=
  Format.parse ((pick flag fromEnv).getD Format.yaml.name)

/-- The seconds of the flag, else what the variable spells, else the default. -/
def readSeconds (flag : Option Nat) (fromEnv : Option String) : Outcome Nat :=
  match flag with
  | some n => .ok n
  | none => match Text.unlessEmpty fromEnv with
    | some raw => readTimeout raw
    | none => .ok defaultTimeout

/-- The format is read before the seconds. -/
theorem resolve_eq (flags : GlobalFlags) (env : String → Option String) :
    resolve flags env =
      (readOutput flags.output (env outputVariable)).bind fun output =>
        (readSeconds flags.timeout (env timeoutVariable)).bind fun seconds =>
          .ok ⟨(pick flags.serverUrl (env serverVariable)).getD defaultServer,
            pick flags.token (env tokenVariable), output,
            if seconds = 0 then none else some seconds⟩ := by
  unfold resolve readOutput readSeconds
  cases pick flags.output (env outputVariable) <;> cases flags.timeout <;>
    cases Text.unlessEmpty (env timeoutVariable) <;> rfl

/-! ### What wins -/

section

variable (flags : GlobalFlags) (env : String → Option String)

/-- The text of the format that wins. -/
def outputText : Option String :=
  firstText [flags.output, env outputVariable, some Format.yaml.name]

/-- The number of seconds that wins, which may be zero. -/
inductive Seconds : Nat → Prop
  | ofFlag {n : Nat} (hflag : flags.timeout = some n) : Seconds n
  | ofVariable {raw : String} {n : Nat} (hflag : flags.timeout = none)
      (hraw : Text.unlessEmpty (env timeoutVariable) = some raw) (hspells : Spells raw n)
      (hbound : n < Nat.pow 2 64) : Seconds n
  | ofDefault (hflag : flags.timeout = none)
      (hraw : Text.unlessEmpty (env timeoutVariable) = none) : Seconds 300

/-- The settings are those that win. Zero seconds are no limit. -/
structure Wins (s : Settings) : Prop where
  serverUrl : firstText [flags.serverUrl, env serverVariable, some defaultServer] = some s.serverUrl
  token : firstText [flags.token, env tokenVariable] = s.token
  output : outputText flags env = some s.output.name
  timeout : ∃ n, Seconds flags env n ∧ (n = 0 ∧ s.timeout = none ∨ n ≠ 0 ∧ s.timeout = some n)

/-- The text that wins names no format. -/
def BadOutput (text : String) : Prop :=
  outputText flags env = some text ∧ text ≠ "json" ∧ text ≠ "yaml"

/-- The variable wins, but spells no number of seconds. -/
def BadTimeout (raw : String) : Prop :=
  flags.timeout = none ∧ Text.unlessEmpty (env timeoutVariable) = some raw ∧
    ∀ n < Nat.pow 2 64, ¬Spells raw n

/-- Why settings are refused; the format comes first. -/
inductive Refused : Failure → Prop
  | output {text : String} (h : BadOutput flags env text) :
      Refused (.misuse (.unsupportedFormat text))
  | timeout {raw : String} (houtput : ∀ text, ¬BadOutput flags env text)
      (h : BadTimeout flags env raw) : Refused (.misuse (.invalidTimeout raw))

end

variable {flags : GlobalFlags} {env env' : String → Option String}

theorem readOutput_eq_ok_iff {f : Format} :
    readOutput flags.output (env outputVariable) = .ok f ↔ outputText flags env = some f.name := by
  rw [readOutput, Format.parse_eq_ok_iff, outputText, firstText_default (by decide),
    Option.some.injEq]

theorem readOutput_eq_error_iff {e : Failure} :
    readOutput flags.output (env outputVariable) = .error e ↔
      ∃ text, BadOutput flags env text ∧ e = .misuse (.unsupportedFormat text) := by
  have htext := firstText_default (by decide : Format.yaml.name ≠ "") flags.output
    (env outputVariable)
  simp [readOutput, Format.parse_eq_error_iff, BadOutput, outputText, htext, and_assoc]

theorem exists_readOutput_iff :
    (∃ f, readOutput flags.output (env outputVariable) = .ok f) ↔
      ∀ text, ¬BadOutput flags env text := by
  constructor
  · rintro ⟨f, hf⟩ text htext
    cases hf.symm.trans (readOutput_eq_error_iff.mpr ⟨text, htext, rfl⟩)
  · intro h
    cases hread : readOutput flags.output (env outputVariable) with
    | ok f => exact ⟨f, rfl⟩
    | error e =>
        obtain ⟨text, htext, -⟩ := readOutput_eq_error_iff.mp hread
        exact (h text htext).elim

theorem readSeconds_eq_ok_iff {n : Nat} :
    readSeconds flags.timeout (env timeoutVariable) = .ok n ↔ Seconds flags env n := by
  unfold readSeconds
  constructor
  · intro h
    split at h
    case h_1 m hflag => exact Except.ok.inj h ▸ .ofFlag hflag
    case h_2 hflag =>
      split at h
      case h_1 raw hraw =>
        obtain ⟨hspells, hbound⟩ := readTimeout_eq_ok_iff.mp h
        exact .ofVariable hflag hraw hspells hbound
      case h_2 hraw => exact Except.ok.inj h ▸ .ofDefault hflag hraw
  · intro h
    cases h with
    | ofFlag hflag => rw [hflag]
    | ofVariable hflag hraw hspells hbound =>
        rw [hflag, hraw]
        exact readTimeout_eq_ok_iff.mpr ⟨hspells, hbound⟩
    | ofDefault hflag hraw =>
        rw [hflag, hraw]
        rfl

theorem readSeconds_eq_error_iff {e : Failure} :
    readSeconds flags.timeout (env timeoutVariable) = .error e ↔
      ∃ raw, BadTimeout flags env raw ∧ e = .misuse (.invalidTimeout raw) := by
  unfold readSeconds
  constructor
  · intro h
    split at h
    case h_1 => cases h
    case h_2 hflag =>
      split at h
      case h_1 raw hraw =>
        obtain ⟨hspells, he⟩ := readTimeout_eq_error_iff.mp h
        exact ⟨raw, ⟨hflag, hraw, hspells⟩, he⟩
      case h_2 => cases h
  · rintro ⟨raw, ⟨hflag, hraw, hspells⟩, he⟩
    rw [hflag, hraw]
    exact readTimeout_eq_error_iff.mpr ⟨hspells, he⟩

theorem resolve_eq_ok_iff {s : Settings} : resolve flags env = .ok s ↔ Wins flags env s := by
  rw [resolve_eq]
  constructor
  · intro h
    obtain ⟨output, houtput, h⟩ := Except.bind_eq_ok_iff.mp h
    obtain ⟨n, hn, h⟩ := Except.bind_eq_ok_iff.mp h
    cases h
    exact {
      serverUrl := firstText_default (by decide) _ _
      token := (pick_eq _ _).symm
      output := readOutput_eq_ok_iff.mp houtput
      timeout := ⟨n, readSeconds_eq_ok_iff.mp hn, by by_cases h : n = 0 <;> simp [h]⟩ }
  · rintro ⟨hserver, htoken, houtput, n, hn, htimeout⟩
    have hserver := Option.some.inj ((firstText_default (by decide) _ _).symm.trans hserver)
    have htimeout : (if n = 0 then none else some n) = s.timeout := by
      rcases htimeout with ⟨hzero, htimeout⟩ | ⟨hpos, htimeout⟩
      · rw [if_pos hzero, htimeout]
      · rw [if_neg hpos, htimeout]
    refine Except.bind_eq_ok_iff.mpr ⟨_, readOutput_eq_ok_iff.mpr houtput, ?_⟩
    refine Except.bind_eq_ok_iff.mpr ⟨n, readSeconds_eq_ok_iff.mpr hn, ?_⟩
    rw [hserver, pick_eq, htoken, htimeout]

theorem resolve_eq_error_iff {e : Failure} :
    resolve flags env = .error e ↔ Refused flags env e := by
  rw [resolve_eq, Except.bind_eq_error_iff, readOutput_eq_error_iff]
  constructor
  · rintro (⟨text, htext, rfl⟩ | ⟨output, houtput, h⟩)
    · exact .output htext
    · have hgood := exists_readOutput_iff.mp ⟨output, houtput⟩
      obtain herror | ⟨n, -, hn⟩ := Except.bind_eq_error_iff.mp h
      · obtain ⟨raw, hraw, rfl⟩ := readSeconds_eq_error_iff.mp herror
        exact .timeout hgood hraw
      · cases hn
  · intro h
    cases h with
    | output htext => exact .inl ⟨_, htext, rfl⟩
    | timeout hgood hraw =>
        obtain ⟨output, houtput⟩ := exists_readOutput_iff.mpr hgood
        have herror := readSeconds_eq_error_iff.mpr ⟨_, hraw, rfl⟩
        exact .inr ⟨output, houtput, Except.bind_eq_error_iff.mpr (.inl herror)⟩

/-- The variables, each with whether its flag is given: a text that is not empty, or any number. -/
def flagGiven (flags : GlobalFlags) : List (String × Bool) :=
  [(serverVariable, (Text.unlessEmpty flags.serverUrl).isSome),
    (tokenVariable, (Text.unlessEmpty flags.token).isSome),
    (outputVariable, (Text.unlessEmpty flags.output).isSome),
    (timeoutVariable, flags.timeout.isSome)]

theorem pick_congr {flag a b : Option String} (h : (Text.unlessEmpty flag).isSome = false → a = b) :
    pick flag a = pick flag b := by
  unfold pick
  cases hflag : Text.unlessEmpty flag with
  | none => rw [h (by rw [hflag, Option.isSome_none])]
  | some text => rfl

theorem readOutput_congr {flag a b : Option String}
    (h : (Text.unlessEmpty flag).isSome = false → a = b) :
    readOutput flag a = readOutput flag b := by
  rw [readOutput, readOutput, pick_congr h]

theorem readSeconds_congr {flag : Option Nat} {a b : Option String}
    (h : flag.isSome = false → a = b) : readSeconds flag a = readSeconds flag b := by
  cases flag with
  | none => rw [h rfl]
  | some n => rfl

theorem resolve_congr (h : ∀ v, (v, false) ∈ flagGiven flags → env v = env' v) :
    resolve flags env = resolve flags env' := by
  have hserver := pick_congr fun hflag : (Text.unlessEmpty flags.serverUrl).isSome = false =>
    h serverVariable (by simp [flagGiven, hflag])
  have htoken := pick_congr fun hflag : (Text.unlessEmpty flags.token).isSome = false =>
    h tokenVariable (by simp [flagGiven, hflag])
  have houtput := readOutput_congr fun hflag : (Text.unlessEmpty flags.output).isSome = false =>
    h outputVariable (by simp [flagGiven, hflag])
  have hseconds := readSeconds_congr fun hflag : flags.timeout.isSome = false =>
    h timeoutVariable (by simp [flagGiven, hflag])
  rw [resolve_eq, resolve_eq, hserver, htoken, houtput, hseconds]

/-- The settings of a run depend on the variables whose flag is not given, and on no others of the
environment. They are those that win, or are refused where the format or the seconds that win cannot
be read. -/
theorem resolve_strict (flags : GlobalFlags) :
    (∀ env env' : String → Option String,
      (∀ v, (v, false) ∈ flagGiven flags → env v = env' v) →
        resolve flags env = resolve flags env') ∧
    ∀ env : String → Option String,
      (∀ s, resolve flags env = .ok s ↔ Wins flags env s) ∧
      (∀ e, resolve flags env = .error e ↔ Refused flags env e) ∧
      ((∃ e, resolve flags env = .error e) ↔
        (∃ text, BadOutput flags env text) ∨ ∃ raw, BadTimeout flags env raw) := by
  refine ⟨fun _ _ => resolve_congr, fun env => ⟨fun _ => resolve_eq_ok_iff,
    fun _ => resolve_eq_error_iff, ?_⟩⟩
  simp only [resolve_eq_error_iff]
  constructor
  · rintro ⟨e, h⟩
    cases h with
    | output htext => exact .inl ⟨_, htext⟩
    | timeout _ hraw => exact .inr ⟨_, hraw⟩
  · rintro (⟨text, htext⟩ | ⟨raw, hraw⟩)
    · exact ⟨_, .output htext⟩
    · by_cases hgood : ∀ text, ¬BadOutput flags env text
      · exact ⟨_, .timeout hgood hraw⟩
      · obtain ⟨text, htext⟩ := not_forall_not.mp hgood
        exact ⟨_, .output htext⟩

/-- Flags win over variables that could not be read. A number of seconds may be spelled with a plus
sign and blanks; a word is refused. -/
theorem resolve_strict_overridden :
    resolve ⟨none, none, some "json", some 0⟩ (fun v =>
        if v = timeoutVariable then some "soon"
        else if v = outputVariable then some "xml"
        else none) =
      .ok ⟨"http://localhost:3456", none, .json, none⟩ ∧
    Spells " +15 " 15 ∧
    resolve {} (fun v => if v = timeoutVariable then some " +15 " else none) =
      .ok ⟨"http://localhost:3456", none, .yaml, some 15⟩ ∧
    Refused {} (fun v => if v = timeoutVariable then some "soon" else none)
      (.misuse (.invalidTimeout "soon")) := by
  have hspells : Spells " +15 " 15 :=
    ⟨[' '], "+15".toList, [' '], by decide, List.all_eq_true.mp rfl, ['+'], ['1', '5'],
      by decide, .inr rfl, by decide, List.all_eq_true.mp rfl, by decide⟩
  refine ⟨?_, hspells, ?_, ?_⟩
  · refine ((resolve_strict _).1 _ (fun _ => none) fun v hv => ?_).trans rfl
    have hother : v = serverVariable ∨ v = tokenVariable := by
      simpa [flagGiven, Text.unlessEmpty] using hv
    rcases hother with rfl | rfl <;> rfl
  · refine (((resolve_strict {}).2 _).1 _).mpr ⟨by decide, rfl, by decide, 15, ?_, by simp⟩
    exact .ofVariable rfl rfl hspells (by decide)
  · exact (((resolve_strict {}).2 _).2.1 _).mp rfl

end Settings

end ApiCommands
