import ApiCommands.Program
import ApiCommands.Proofs.Surface.Destination

namespace ApiCommands

/-!
# Dispatch

A run that comes past the parsing of its words sends the request of a node, shows the tree or
writes a script. It never ends for want of a command, since the level of a node that only groups
requires a subcommand.
-/

/-- The outcome is not the failure that a subcommand is needed. -/
def NeedsNone {α : Type} (x : Outcome α) : Prop :=
  ∀ name, x ≠ .error (.misuse (.needsSubcommand name))

section NeedsNone

variable {α β : Type}

theorem needsNone_ok (a : α) : NeedsNone (.ok a) := by simp [NeedsNone]

theorem NeedsNone.bind {x : Outcome α} {f : α → Outcome β} (hx : NeedsNone x)
    (hf : ∀ a, NeedsNone (f a)) : NeedsNone (x >>= f) := by
  cases x with
  | ok a => exact hf a
  | error failure =>
      intro name heq
      cases heq
      exact hx name rfl

theorem NeedsNone.map {x : Outcome α} (hx : NeedsNone x) (f : α → β) : NeedsNone (x.map f) := by
  cases x with
  | ok a => exact needsNone_ok (f a)
  | error failure =>
      intro name heq
      cases heq
      exact hx name rfl

theorem needsNone_parse (s : String) : NeedsNone (Format.parse s) := by
  rw [Format.parse]
  split
  · exact needsNone_ok _
  · split
    · exact needsNone_ok _
    · simp [NeedsNone]

theorem needsNone_readTimeout (raw : String) : NeedsNone (Settings.readTimeout raw) := by
  rw [Settings.readTimeout]
  split
  · exact needsNone_ok _
  · simp [NeedsNone]

theorem needsNone_resolve (flags : GlobalFlags) (env : String → Option String) :
    NeedsNone (Settings.resolve flags env) := by
  rw [Settings.resolve]
  split
  case' h_1 raw _ => refine (needsNone_parse raw).bind fun output => ?_
  case' h_2 => refine (needsNone_ok Format.yaml).bind fun output => ?_
  -- The format is settled; what is left is the same in both cases.
  all_goals
    dsimp only
    split
    · exact (needsNone_ok _).bind fun _ => needsNone_ok _
    · split
      · exact (needsNone_readTimeout _).bind fun _ => needsNone_ok _
      · exact (needsNone_ok _).bind fun _ => needsNone_ok _

theorem needsNone_validate (i : Input) (value : String) : NeedsNone (i.validate value) := by
  rw [Input.validate]
  split
  · exact needsNone_ok _
  · simp [NeedsNone]

theorem needsNone_collectInputs (values : Values) (is : List Input) :
    NeedsNone (Surface.collectInputs values is) := by
  induction is with
  | nil => exact needsNone_ok _
  | cons i is ih =>
      rw [Surface.collectInputs]
      split
      · exact ih
      · exact (needsNone_validate i _).bind fun _ => ih.bind fun _ => needsNone_ok _

theorem needsNone_prepare (method template : String) (given : List Given) :
    NeedsNone (Request.prepare method template given) := by
  rw [Request.prepare]
  split
  · simp [NeedsNone]
  · dsimp only
    split
    · simp [NeedsNone]
    · exact needsNone_ok _

theorem needsNone_checkToken (token : Option String) : NeedsNone (Request.checkToken token) := by
  rw [Request.checkToken]
  split
  · exact needsNone_ok _
  · split
    · exact needsNone_ok _
    · simp [NeedsNone]

theorem needsNone_call (settings : Settings) (method template : String) (given : List Given) :
    NeedsNone (Request.call settings method template given) :=
  (needsNone_prepare method template given).bind fun _ =>
    (needsNone_checkToken settings.token).bind fun _ => needsNone_ok _

theorem lostFailure_ne_misuse (settings : Settings) (l : Lost) (cause : Misuse) :
    Request.lostFailure settings l ≠ .misuse cause := by
  cases l with
  | timedOut =>
      rw [Request.lostFailure]
      split <;> simp
  | noConnection => simp [Request.lostFailure]
  | brokenOff reason => simp [Request.lostFailure]

theorem failure_ne_misuse (status : Nat) (body : List UInt8) (cause : Misuse) :
    Answer.failure status body ≠ .misuse cause := by
  rw [Answer.failure]
  split
  · simp
  · split <;> simp

theorem needsNone_execute (carrier : Carrier) (settings : Settings) (method template : String)
    (given : List Given) : NeedsNone (Request.execute carrier settings method template given) := by
  refine (needsNone_call settings method template given).bind fun c => ?_
  split
  · exact fun name heq => lostFailure_ne_misuse settings _ _ (Except.error.inj heq)
  · split
    · exact fun name heq => failure_ne_misuse _ _ _ (Except.error.inj heq)
    · exact needsNone_ok _

theorem needsNone_invoke (carrier : Carrier) (settings : Settings) (e : Endpoint)
    (values : Values) : NeedsNone (Surface.invoke carrier settings e values) :=
  (needsNone_collectInputs values e.inputs).bind fun given =>
    needsNone_execute carrier settings e.method e.path given

end NeedsNone

namespace Program

open Surface (Target Leads builtIn? findNode parse build)

/-- An ending that the settings of a run are needed for. -/
def withSettings (w : World) (m : Matches) (f : Settings → Ending) : Ending :=
  match Settings.resolve m.globalFlags w.env with
  | .error failure => .failed failure
  | .ok settings => f settings

/-- The ending of a run that is dispatched to a target. -/
def endingOf (w : World) (s : Startup) (m : Matches) : Target → Ending
  | .request e => withSettings w m fun settings =>
      ofOutcome ((Surface.invoke w.carrier settings e m.lastValues).map
        (Output.response settings.output))
  | .tree => withSettings w m fun settings =>
      .print (Output.value settings.output (Tree.toValue s.tree))
  | .completion shell => complete (build s.tree s.version) shell

/-- An ending of a command line that names a command to be run. -/
def Ending.IsDispatched (x : Ending) : Prop :=
  x ≠ .unknownCommand ∧ ∀ name, x ≠ .failed (.misuse (.needsSubcommand name))

theorem isDispatched_print (text : String) : (Ending.print text).IsDispatched := by
  simp [Ending.IsDispatched]

theorem isDispatched_ofOutcome {x : Outcome String} (h : NeedsNone x) :
    (ofOutcome x).IsDispatched := by
  cases x with
  | ok text => exact isDispatched_print text
  | error failure =>
      refine ⟨by simp [ofOutcome], fun name heq => h name ?_⟩
      cases heq
      rfl

theorem isDispatched_complete (c : Spec) (shell : Shell) : (complete c shell).IsDispatched := by
  rw [complete]
  split
  · exact isDispatched_print _
  · simp [Ending.IsDispatched]

theorem isDispatched_withSettings (w : World) (m : Matches) {f : Settings → Ending}
    (hf : ∀ settings, (f settings).IsDispatched) : (withSettings w m f).IsDispatched := by
  rw [withSettings]
  split
  case h_1 failure herror =>
    refine ⟨by simp, fun name heq => needsNone_resolve m.globalFlags w.env name ?_⟩
    cases heq
    exact herror
  case h_2 settings _ => exact hf settings

theorem isDispatched_endingOf (w : World) (s : Startup) (m : Matches) (target : Target) :
    (endingOf w s m target).IsDispatched := by
  cases target with
  | request e =>
      refine isDispatched_withSettings w m fun settings => isDispatched_ofOutcome ?_
      exact (needsNone_invoke w.carrier settings e m.lastValues).map _
  | tree => exact isDispatched_withSettings w m fun settings => isDispatched_print _
  | completion shell => exact isDispatched_complete _ shell

theorem runNamed_eq (w : World) (t : Tree) (m : Matches) :
    runNamed w t m = withSettings w m fun settings =>
      match findNode t m with
      | some n => ofOutcome (runNode w settings n m.lastValues)
      | none =>
        if builtIn? m = some Surface.treeCommand then
          .print (Output.value settings.output (Tree.toValue t))
        else .unknownCommand :=
  rfl

section Leads

variable {w : World} {s : Startup} {m : Matches}

theorem dispatch_of_findNode {n : Node} {e : Endpoint} (hfind : findNode s.tree m = some n)
    (he : n.endpoint = some e) : dispatch w s m = endingOf w s m (.request e) := by
  rw [dispatch, hfind]
  dsimp only
  rw [runNamed_eq, endingOf, hfind]
  refine congrArg (withSettings w m) (funext fun settings => ?_)
  dsimp only
  rw [runNode, he]

theorem dispatch_of_leads {target : Target} (h : Leads s.tree m target) :
    dispatch w s m = endingOf w s m target := by
  cases h with
  | top _ _ hfind he => exact dispatch_of_findNode hfind he
  | child _ _ _ hfind he => exact dispatch_of_findNode hfind he
  | tree _ hsteps hnone hshell =>
      have hfirst : builtIn? m = some Surface.treeCommand := by
        rw [builtIn?, hsteps]
        rfl
      rw [dispatch, hnone, hshell]
      dsimp only
      rw [runNamed_eq, endingOf, hnone]
      exact congrArg (withSettings w m) (funext fun settings => if_pos hfirst)
  | completion _ _ hnone hshell =>
      rw [dispatch, hnone, hshell]
      rfl

end Leads

/-! ### Every accepted command line -/

theorem exists_ofCommands (bytes : List UInt8) :
    ∃ cs, (compileTree bytes).1 = Tree.ofCommands cs := by
  rw [compileTree]
  split
  · exact ⟨[], rfl⟩
  · split
    case h_1 commands _ _ => exact ⟨commands, rfl⟩
    case h_2 => exact ⟨[], rfl⟩

/-- A built-in command never stands before a node: a command line that begins with the name of one
leads to this node or to a child of it. -/
theorem leads_to_node {cs : List Command} {t : Tree} (harranged : Tree.Arrangement cs t)
    {m : Matches} {target : Target} (h : Leads t m target) {p : Node} (hp : p ∈ t)
    (hfirst : builtIn? m = some p.name) :
    ∃ n ∈ p :: p.children, ∃ e, findNode t m = some n ∧ n.endpoint = some e ∧
      target = .request e := by
  have hname {name : String} {vs : Values} {steps : List Step}
      (hsteps : m.steps = ⟨name, vs⟩ :: steps) : name = p.name := by
    rw [builtIn?, hsteps] at hfirst
    exact Option.some.inj hfirst
  have honly {q : Node} (hq : q ∈ t) (heq : q.name = p.name) : q = p :=
    List.inj_on_of_nodup_map harranged.nodup hq hp heq
  cases h with
  | top hn hsteps hfind he =>
      obtain rfl := honly hn (hname hsteps)
      exact ⟨_, List.mem_cons_self, _, hfind, he, rfl⟩
  | child hq hn hsteps hfind he =>
      obtain rfl := honly hq (hname hsteps)
      exact ⟨_, List.mem_cons_of_mem _ hn, _, hfind, he, rfl⟩
  | tree hfree hsteps =>
      rw [hname hsteps, harranged.find p hp] at hfree
      cases hfree
  | completion hfree hsteps =>
      rw [hname hsteps, harranged.find p hp] at hfree
      cases hfree

/-- Whatever the document and the words, a command line that is accepted leads to a target, to the
node that it names where there is one, and the run ends as this target does. -/
theorem exists_target (bytes : List UInt8) (version : String) {words : List String} {m : Matches}
    (h : parse (build (compileTree bytes).1 version) words = .ok m) :
    ∃ target, Leads (compileTree bytes).1 m target ∧
      (∀ p ∈ (compileTree bytes).1, builtIn? m = some p.name →
        ∃ n ∈ p :: p.children, ∃ e, findNode (compileTree bytes).1 m = some n ∧
          n.endpoint = some e ∧ target = .request e) ∧
      ∀ (w : World) (s : Startup), s.tree = (compileTree bytes).1 →
        dispatch w s m = endingOf w s m target ∧ (dispatch w s m).IsDispatched := by
  obtain ⟨cs, htree⟩ := exists_ofCommands bytes
  have harranged : Tree.Arrangement cs (compileTree bytes).1 :=
    htree ▸ Tree.arrangement_ofCommands cs
  obtain ⟨target, hleads⟩ := (Surface.accepted_of_parse h).exists_leads harranged
  refine ⟨target, hleads, fun p hp hfirst => leads_to_node harranged hleads hp hfirst, ?_⟩
  intro w s hs
  have hdispatch : dispatch w s m = endingOf w s m target := dispatch_of_leads (hs ▸ hleads)
  exact ⟨hdispatch, hdispatch ▸ isDispatched_endingOf w s m target⟩

/-- A document with a path under the name of a built-in command, which itself has no operation. -/
def completionDocument : List UInt8 := Text.Utf8.encode
  "\x7b\"paths\":\x7b\"/api/v1/completion/x\":\x7b\"get\":\x7b\x7d\x7d\x7d\x7d"

theorem parse_completionDocument :
    parse (build (compileTree completionDocument).1 "1") ["completion", "x"] =
      .ok ⟨[], [⟨"completion", []⟩, ⟨"x", []⟩]⟩ := by
  decide +kernel

/-- Where a node has the name of a built-in command, its child is run. -/
theorem exists_target_completion :
    let m : Matches := ⟨[], [⟨"completion", []⟩, ⟨"x", []⟩]⟩
    ∃ n e, findNode (compileTree completionDocument).1 m = some n ∧ n.endpoint = some e ∧
      ∀ (w : World) (s : Startup), s.tree = (compileTree completionDocument).1 →
        dispatch w s m = endingOf w s m (.request e) ∧ (dispatch w s m).IsDispatched := by
  obtain ⟨target, hleads, _, hrun⟩ := exists_target completionDocument "1" parse_completionDocument
  cases hleads with
  | top _ _ hfind he => exact ⟨_, _, hfind, he, hrun⟩
  | child _ _ _ hfind he => exact ⟨_, _, hfind, he, hrun⟩
  | tree _ hsteps => simp at hsteps
  | completion _ hsteps => simp at hsteps

end Program

end ApiCommands
