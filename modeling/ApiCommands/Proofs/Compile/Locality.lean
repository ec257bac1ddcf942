import ApiCommands.Proofs.Compile.Complete
import ApiCommands.Proofs.Schema.Chains

namespace ApiCommands

/-!
# What the command of an operation depends on

Beside the operation itself, a command depends on the components to which the schemas of its
parameters, of its body and of the members of that body lead. A body that cannot be resolved adds
nothing to a command.
-/

open Document (Declared Operation Method)
open Schema (AgreeFrom Components resolve_of_agree)

namespace Compile

variable {components components' : Components}

/-- Two tables of components do not differ where the parameters of an operation lead. -/
def AgreeOnParameters (components components' : Components) (op : Operation) : Prop :=
  ∀ x ∈ op.parameters, ∀ node, x.schema = some node → AgreeFrom components components' node

/-- Two tables of components do not differ where the body of an operation leads, nor where the
members of the resolved body do. -/
structure AgreeOnBody (components components' : Components) (op : Operation) : Prop where
  body : ∀ node, op.body = some node → AgreeFrom components components' node
  members : ∀ node body, op.body = some node → Schema.resolve components node = .ok body →
    ∀ entry ∈ body.properties, AgreeFrom components components' entry.2

theorem lookUp_of_agree {schema : Option Schema.Node}
    (h : ∀ node, schema = some node → AgreeFrom components components' node) :
    lookUp components schema = lookUp components' schema := by
  cases schema with
  | none => rfl
  | some node => rw [lookUp, lookUp, resolve_of_agree (h node rfl)]

theorem declare_of_agree {x : Declared}
    (h : lookUp components x.schema = lookUp components' x.schema) (method path : String)
    (d : Draft) : d.declare components method path x = d.declare components' method path x := by
  rw [Draft.declare, Draft.declare, Draft.describe, Draft.describe, h]

theorem foldl_declare_of_agree {xs : List Declared}
    (h : ∀ x ∈ xs, ∀ node, x.schema = some node → AgreeFrom components components' node)
    (method path : String) (d : Draft) :
    xs.foldl (Draft.declare components method path) d =
      xs.foldl (Draft.declare components' method path) d := by
  apply List.foldl_ext
  intro d x hx
  exact declare_of_agree (lookUp_of_agree (h x hx)) method path d

theorem bodyOf_of_agree {body : Schema.Node}
    (h : ∀ entry ∈ body.properties, AgreeFrom components components' entry.2) :
    bodyOf components body = bodyOf components' body := by
  have hlookUp : ∀ entry ∈ body.properties,
      lookUp components (some entry.2) = lookUp components' (some entry.2) := fun entry hentry =>
    lookUp_of_agree fun node hnode => Option.some.inj hnode ▸ h entry hentry
  rw [bodyOf, bodyOf]
  dsimp only
  rw [List.map_congr_left fun entry hentry => congrArg (entry.1, ·) (hlookUp entry hentry)]

theorem offers_of_agree {op : Operation} (h : AgreeOnBody components components' op) :
    offers components op = offers components' op := by
  rw [offers, offers, bodyParams, bodyParams]
  cases hbody : op.body with
  | none => rfl
  | some node =>
      dsimp only
      rw [← resolve_of_agree (h.body node hbody)]
      cases hresolve : Schema.resolve components node with
      | error broken => rfl
      | ok body =>
          dsimp only
          rw [bodyOf_of_agree (h.members node body hbody hresolve)]

/-- A body that cannot be resolved offers nothing, as if there were none. -/
theorem offers_of_unresolved {op : Operation}
    (h : ∀ node body, op.body = some node → Schema.resolve components node ≠ .ok body) :
    offers components op = [] := by
  rw [offers, bodyParams]
  cases hbody : op.body with
  | none => rfl
  | some node =>
      dsimp only
      cases hresolve : Schema.resolve components node with
      | error broken => rfl
      | ok body => exact (h node body hbody hresolve).elim

theorem params_draft (components : Components) (method path relative : String) (op : Operation) :
    (draft components method path relative op).params =
      let declared := op.parameters.foldl (Draft.declare components method path)
        { params := (Text.Template.names relative).map placeholder }
      declared.params ++ fresh Param.name (declared.params.map Param.name)
        (offers components op) := by
  rw [← bodyParams_fst components method path op]
  exact params_foldl_push method path _ _

end Compile

/-- An operation without its request body. -/
def Document.Operation.withoutBody (op : Operation) : Operation := { op with content := [] }

namespace Compile

variable {components components' : Components}

def Site.withoutBody (s : Site) : Site := { s with operation := s.operation.withoutBody }

/-- The one command for the path and the method of an operation. -/
def IsCommandOf (s : Site) (commands : List Command) (c : Command) : Prop :=
  ∀ b, (b ∈ commands ∧ b.path = s.path ∧ b.method = s.method.name) ↔ b = c

theorem isCommandOf_commandAt {options : Options} {bytes : List UInt8} {d : Document}
    (h : Document.parse bytes = .ok d) {s : Site} (hs : s ∈ sites options d) :
    IsCommandOf s (ofDocument options d).1 (commandAt options d.schemas s).1 := by
  obtain ⟨_, _, rfl⟩ := Document.parse_eq_ok_iff.mp h
  intro b
  rw [commands_ofDocument]
  constructor
  · rintro ⟨hb, hpath, hmethod⟩
    obtain ⟨t, ht, rfl⟩ := List.mem_map.mp hb
    rw [path_commandAt] at hpath
    rw [method_commandAt] at hmethod
    rw [eq_of_mem_sites ht hs hpath (Document.Method.name_injective hmethod)]
  · rintro rfl
    exact ⟨List.mem_map_of_mem hs, path_commandAt _ _ _, method_commandAt _ _ _⟩

theorem commandAt_of_agree {s : Site} (options : Options)
    (hparameters : AgreeOnParameters components components' s.operation)
    (hbody : AgreeOnBody components components' s.operation) :
    (commandAt options components s).1 = (commandAt options components' s).1 := by
  simp only [commandAt, command, params_draft, foldl_declare_of_agree hparameters,
    offers_of_agree hbody]

theorem commandAt_withoutBody {s : Site} (options : Options)
    (hparameters : AgreeOnParameters components components' s.operation)
    (hbody : ∀ node body, s.operation.body = some node →
      Schema.resolve components node ≠ .ok body) :
    (commandAt options components s).1 = (commandAt options components' s.withoutBody).1 := by
  have hnone : offers components' s.withoutBody.operation = [] := rfl
  simp only [commandAt, command, params_draft, foldl_declare_of_agree hparameters,
    offers_of_unresolved hbody, hnone]
  rfl

/-- An operation that two documents declare at one place has the same command in both, when their
components do not differ where its schemas lead; documents with the same paths declare the same
operations. An operation whose body cannot be resolved has the command that it would have without
a body. -/
theorem exists_same_command {options : Options} {bytes bytes' : List UInt8} {d d' : Document}
    (h : Document.parse bytes = .ok d) (h' : Document.parse bytes' = .ok d') {s : Site}
    (hs : s ∈ sites options d)
    (hagree : AgreeOnParameters d.schemas d'.schemas s.operation) :
    ∃ commands notices commands' notices' c,
      compile options bytes = .ok (commands, notices) ∧
      compile options bytes' = .ok (commands', notices') ∧
      IsCommandOf s commands c ∧
      (s ∈ sites options d' → AgreeOnBody d.schemas d'.schemas s.operation →
        IsCommandOf s commands' c) ∧
      (s.withoutBody ∈ sites options d' →
        (∀ node body, s.operation.body = some node →
          Schema.resolve d.schemas node ≠ .ok body) →
        IsCommandOf s commands' c) := by
  refine ⟨_, _, _, _, _, compile_eq_ok_iff.mpr ⟨d, h, rfl⟩, compile_eq_ok_iff.mpr ⟨d', h', rfl⟩,
    isCommandOf_commandAt h hs, ?_, ?_⟩
  · intro hs' hbody
    rw [commandAt_of_agree options hagree hbody]
    exact isCommandOf_commandAt h' hs'
  · intro hs' hbody
    rw [commandAt_withoutBody options hagree hbody]
    exact isCommandOf_commandAt h' hs'

/-! ### Documents that differ in one component -/

section Differing

open Json (Outline)

/-- The bytes of a document with two operations. The body of the second is the component `B`, whose
text is given. -/
def documentWith (component : String) : List UInt8 := List.flatMap Text.Utf8.encode
  ["\x7b\"paths\":\x7b\"/api/v1/a\":\x7b\"post\":\x7b\"parameters\":[\x7b\"name\":\"n\",\"in\":\"query\",",
    "\"schema\":\x7b\"$ref\":\"#/components/schemas/N\"\x7d\x7d],\"requestBody\":\x7b\"content\":",
    "\x7b\"application/json\":\x7b\"schema\":\x7b\"properties\":\x7b\"k\":",
    "\x7b\"$ref\":\"#/components/schemas/N\"\x7d\x7d\x7d\x7d\x7d\x7d\x7d,",
    "\"put\":\x7b\"requestBody\":\x7b\"content\":\x7b\"application/json\":\x7b\"schema\":",
    "\x7b\"$ref\":\"#/components/schemas/B\"\x7d\x7d\x7d\x7d\x7d\x7d\x7d,",
    "\"components\":\x7b\"schemas\":\x7b\"N\":\x7b\"type\":\"integer\"\x7d,\"B\":", component, "\x7d\x7d\x7d"]

def soundDocument : List UInt8 := documentWith "\x7b\"properties\":\x7b\"m\":\x7b\x7d\x7d\x7d"

def cyclicDocument : List UInt8 := documentWith "\x7b\"$ref\":\"#/components/schemas/B\"\x7d"

/-- The second of the operations alone, without its body. -/
def bodilessDocument : List UInt8 :=
  Text.Utf8.encode "\x7b\"paths\":\x7b\"/api/v1/a\":\x7b\"put\":\x7b\x7d\x7d\x7d\x7d"

def referenceOutline (name : String) : Outline :=
  .object [(.ok "$ref", .string (.ok ("#/components/schemas/" ++ name)))] none

def requestOutline (schema : Outline) : Outline :=
  .object [(.ok "content", .object [(.ok "application/json",
    .object [(.ok "schema", schema)] none)] none)] none

def parameterOutline : Outline :=
  .object [(.ok "name", .string (.ok "n")), (.ok "in", .string (.ok "query")),
    (.ok "schema", referenceOutline "N")] none

def memberOutline : Outline :=
  .object [(.ok "properties", .object [(.ok "k", referenceOutline "N")] none)] none

def outlineWith (component : Outline) : Outline :=
  .object [(.ok "paths", .object [(.ok "/api/v1/a", .object [
      (.ok "post", .object [(.ok "parameters", .array [parameterOutline] none),
        (.ok "requestBody", requestOutline memberOutline)] none),
      (.ok "put", .object [(.ok "requestBody", requestOutline (referenceOutline "B"))] none)]
      none)] none),
    (.ok "components", .object [(.ok "schemas", .object [
      (.ok "N", .object [(.ok "type", .string (.ok "integer"))] none),
      (.ok "B", component)] none)] none)] none

set_option maxRecDepth 4000 in
theorem ofBytes_soundDocument : Outline.ofBytes soundDocument = (outlineWith
    (.object [(.ok "properties", .object [(.ok "m", .object [] none)] none)] none), false) := by
  cbv

set_option maxRecDepth 4000 in
theorem ofBytes_cyclicDocument : Outline.ofBytes cyclicDocument =
    (outlineWith (referenceOutline "B"), false) := by
  cbv

theorem ofBytes_bodilessDocument : Outline.ofBytes bodilessDocument =
    (.object [(.ok "paths", .object [(.ok "/api/v1/a",
      .object [(.ok "put", .object [] none)] none)] none)] none, false) := by
  cbv

def referenceTo (name : String) : Schema.Node :=
  { reference := some ("#/components/schemas/" ++ name) }

def postOperation : Operation :=
  { summary := "", description := ""
    parameters := [⟨"n", "query", false, "", some (referenceTo "N")⟩]
    content := [("application/json", some { properties := [("k", referenceTo "N")] })] }

def putOperation : Operation :=
  { summary := "", description := "", parameters := []
    content := [("application/json", some (referenceTo "B"))] }

def withComponent (node : Schema.Node) : Document :=
  { paths := [("/api/v1/a", [(.post, postOperation), (.put, putOperation)])]
    schemas := [("B", node), ("N", { typeName := "integer" })] }

theorem parse_soundDocument :
    Document.parse soundDocument = .ok (withComponent { properties := [("m", {})] }) := by
  rw [Document.parse_eq_ok_iff, ofBytes_soundDocument]
  exact ⟨rfl, rfl, rfl⟩

theorem parse_cyclicDocument :
    Document.parse cyclicDocument = .ok (withComponent (referenceTo "B")) := by
  rw [Document.parse_eq_ok_iff, ofBytes_cyclicDocument]
  exact ⟨rfl, rfl, rfl⟩

theorem parse_bodilessDocument : Document.parse bodilessDocument =
    .ok { paths := [("/api/v1/a", [(.put, putOperation.withoutBody)])], schemas := [] } := by
  rw [Document.parse_eq_ok_iff, ofBytes_bodilessDocument]
  exact ⟨rfl, rfl, rfl⟩

theorem agreeFrom_referenceTo (node node' : Schema.Node) :
    AgreeFrom (withComponent node).schemas (withComponent node').schemas (referenceTo "N") := by
  have hpointer : (referenceTo "N").pending = some "#/components/schemas/N" := by decide +kernel
  have hcomponent : Schema.componentName "#/components/schemas/N" = some "N" := by decide +kernel
  intro name hreaches
  cases hreaches with
  | here hpending hname =>
      cases hpointer.symm.trans hpending
      cases hcomponent.symm.trans hname
      rfl
  | beyond hpending hname htarget hrest =>
      cases hpointer.symm.trans hpending
      cases hcomponent.symm.trans hname
      cases htarget
      -- The chain ends at this component.
      cases hrest with
      | here hpending => cases hpending
      | beyond hpending => cases hpending

theorem agreeOnParameters_postOperation (node node' : Schema.Node) :
    AgreeOnParameters (withComponent node).schemas (withComponent node').schemas
      postOperation := by
  intro x hx schema hschema
  cases List.mem_singleton.mp hx
  cases hschema
  exact agreeFrom_referenceTo node node'

theorem agreeOnBody_postOperation (node node' : Schema.Node) :
    AgreeOnBody (withComponent node).schemas (withComponent node').schemas postOperation where
  body := by
    intro schema hschema name hreaches
    cases hschema
    cases hreaches with
    | here hpending => cases hpending
    | beyond hpending => cases hpending
  members := by
    intro schema body hschema hresolve entry hentry
    cases hschema
    cases hresolve
    cases List.mem_singleton.mp hentry
    exact agreeFrom_referenceTo node node'

/-- A body that refers to itself changes neither the command of another operation nor what its own
command would be without it. -/
theorem exists_same_command_cyclic :
    (∃ commands notices commands' notices' c,
      compile {} soundDocument = .ok (commands, notices) ∧
      compile {} cyclicDocument = .ok (commands', notices') ∧
      IsCommandOf ⟨"/api/v1/a", .post, postOperation⟩ commands c ∧
      IsCommandOf ⟨"/api/v1/a", .post, postOperation⟩ commands' c) ∧
    ∃ commands notices commands' notices' c,
      compile {} cyclicDocument = .ok (commands, notices) ∧
      compile {} bodilessDocument = .ok (commands', notices') ∧
      IsCommandOf ⟨"/api/v1/a", .put, putOperation⟩ commands c ∧
      IsCommandOf ⟨"/api/v1/a", .put, putOperation⟩ commands' c := by
  constructor
  · have hsite (node : Schema.Node) : (⟨"/api/v1/a", .post, postOperation⟩ : Site) ∈
        sites {} (withComponent node) := List.mem_cons_self
    obtain ⟨commands, notices, commands', notices', c, hsound, hcyclic, hc, hsame, _⟩ :=
      exists_same_command parse_soundDocument parse_cyclicDocument (hsite _)
        (agreeOnParameters_postOperation _ _)
    exact ⟨commands, notices, commands', notices', c, hsound, hcyclic, hc,
      hsame (hsite _) (agreeOnBody_postOperation _ _)⟩
  · have hsite : (⟨"/api/v1/a", .put, putOperation⟩ : Site) ∈
        sites {} (withComponent (referenceTo "B")) := List.mem_cons_of_mem _ List.mem_cons_self
    obtain ⟨commands, notices, commands', notices', c, hcyclic, hbodiless, hc, _, hsame⟩ :=
      exists_same_command parse_cyclicDocument parse_bodilessDocument hsite
        (by simp [AgreeOnParameters, putOperation])
    refine ⟨commands, notices, commands', notices', c, hcyclic, hbodiless, hc,
      hsame List.mem_cons_self ?_⟩
    intro node body hbody hresolve
    cases hbody
    cases hresolve

end Differing

end Compile

end ApiCommands
