import ApiCommands.Proofs.Compile.Sites
import ApiCommands.Proofs.Document.Removal
import ApiCommands.Proofs.Text.Utf8
import Mathlib

namespace ApiCommands

/-!
# A command for every operation

The commands of a document are those of its operations under the base, ordered by path and then by
method. The command of one operation does not depend on the others.
-/

open Document (Operation Method PathItem Removal itemAt operationAt rank)
open Json (Outline)

namespace Command

/-- The order of commands: by the bytes of the paths, then by the methods. -/
def Before (a b : Command) : Prop :=
  Text.Utf8.encode a.path < Text.Utf8.encode b.path ∨
    a.path = b.path ∧ rank a.method < rank b.method

end Command

namespace Compile

/-- Whether operations at a path become commands. -/
def Options.Takes (options : Options) (path : String) : Prop :=
  (∃ relative, path = options.base ++ relative) ∧ path ∉ options.excluded

/-- Each operation that is taken has one command, there are no others, and they are in order. -/
structure Lists (options : Options) (o : Outline) (commands : List Command) : Prop where
  complete : ∀ path m, options.Takes path → (operationAt o path m).isSome = true →
    ∃! c, c ∈ commands ∧ c.path = path ∧ c.method = m.name
  exclusive : ∀ c ∈ commands, options.Takes c.path ∧
    ∃ m : Method, c.method = m.name ∧ (operationAt o c.path m).isSome = true
  ordered : commands.Pairwise Command.Before

section Sites

variable {options : Options} {o : Outline} {s t : Site}

theorem mem_sitesAt {path : String} {item : PathItem} :
    s ∈ sitesAt options path item ↔
      options.Takes path ∧ s.path = path ∧ (s.method, s.operation) ∈ item := by
  have htakes : options.Takes path ↔
      ¬((relative? options.base path).isNone || options.excluded.contains path) = true := by
    simp [Options.Takes, ← relative?_eq_some_iff, Option.ne_none_iff_exists', not_or]
  rw [sitesAt, htakes]
  split
  case isTrue hnone =>
    constructor
    · intro h
      cases h
    · rintro ⟨hsome, _⟩
      exact (hsome hnone).elim
  case isFalse hsome =>
    rw [List.mem_map]
    constructor
    · rintro ⟨⟨m, op⟩, hmem, rfl⟩
      exact ⟨hsome, rfl, hmem⟩
    · rintro ⟨_, rfl, hmem⟩
      exact ⟨_, hmem, rfl⟩

theorem mem_sites_ofOutline :
    s ∈ sites options (Document.ofOutline o) ↔ options.Takes s.path ∧
      ∃ x, operationAt o s.path s.method = some x ∧ Operation.ofOutline x = s.operation := by
  rw [sites, List.mem_flatMap]
  constructor
  · rintro ⟨⟨path, item⟩, hitem, hs⟩
    obtain ⟨htakes, rfl, hop⟩ := mem_sitesAt.mp hs
    obtain ⟨y, hy, rfl⟩ := Document.mem_paths.mp hitem
    obtain ⟨x, hx, heq⟩ := Document.mem_pathItem.mp hop
    refine ⟨htakes, x, ?_, heq⟩
    rw [operationAt, hy, Option.bind_some, hx]
  · rintro ⟨htakes, x, hx, heq⟩
    obtain ⟨y, hy, hx⟩ := Option.bind_eq_some_iff.mp hx
    refine ⟨(s.path, PathItem.ofOutline y), Document.mem_paths.mpr ⟨y, hy, rfl⟩, ?_⟩
    exact mem_sitesAt.mpr ⟨htakes, rfl, Document.mem_pathItem.mpr ⟨x, hx, heq⟩⟩

/-- There is one operation for each path and method. -/
theorem eq_of_mem_sites (hs : s ∈ sites options (Document.ofOutline o))
    (ht : t ∈ sites options (Document.ofOutline o)) (hpath : s.path = t.path)
    (hmethod : s.method = t.method) : s = t := by
  obtain ⟨_, x, hx, hs⟩ := mem_sites_ofOutline.mp hs
  obtain ⟨_, y, hy, ht⟩ := mem_sites_ofOutline.mp ht
  rw [hpath, hmethod, hy] at hx
  cases s
  cases t
  cases hx
  simp_all

def Site.Before (s t : Site) : Prop :=
  s.path < t.path ∨ s.path = t.path ∧ rank s.method.name < rank t.method.name

theorem Site.before_asymm (s t : Site) (h : s.Before t) : ¬t.Before s := by
  rintro (hback | ⟨hback, hrank⟩)
  · rcases h with h | ⟨h, _⟩
    · exact lt_asymm h hback
    · exact ne_of_lt hback h.symm
  · rcases h with h | ⟨_, h⟩
    · exact ne_of_lt h hback.symm
    · exact lt_asymm h hrank

theorem pairwise_sites (options : Options) (o : Outline) :
    (sites options (Document.ofOutline o)).Pairwise Site.Before := by
  rw [sites, List.pairwise_flatMap]
  constructor
  · rintro ⟨path, item⟩ hitem
    obtain ⟨x, _, rfl⟩ := Document.mem_paths.mp hitem
    dsimp only [sitesAt]
    split
    · exact List.Pairwise.nil
    · apply List.pairwise_map.mpr
      apply (Document.pairwise_pathItem x).imp
      intro e e' hlt
      exact Or.inr ⟨rfl, hlt⟩
  · apply (List.pairwise_map.mp (Table.pairwise_ofList _)).imp
    intro e e' hlt s hs t ht
    obtain ⟨_, hspath, _⟩ := mem_sitesAt.mp hs
    obtain ⟨_, htpath, _⟩ := mem_sitesAt.mp ht
    exact Or.inl (by rwa [hspath, htpath])

/-- What a document lacks is missing among its operations, and the others stay in order. -/
theorem sites_of_lacks {gone : String → String → Bool} {o' : Outline}
    (h : Document.Lacks gone o o') :
    sites options (Document.ofOutline o') =
      (sites options (Document.ofOutline o)).filter fun s => !gone s.path s.method.name := by
  apply eq_of_pairwise Site.before_asymm (pairwise_sites options o')
  · exact (pairwise_sites options o).sublist List.filter_sublist
  · intro s
    rw [List.mem_filter, mem_sites_ofOutline, mem_sites_ofOutline]
    cases hgone : gone s.path s.method.name with
    | false => simp [h.kept s.path s.method hgone]
    | true => simp [h.absent s.path s.method hgone]

end Sites

theorem commands_ofDocument (options : Options) (d : Document) :
    (ofDocument options d).1 = (sites options d).map fun s => (commandAt options d.schemas s).1 :=
  (ofDocument_eq options d).1

theorem path_commandAt (options : Options) (components : Schema.Components) (s : Site) :
    (commandAt options components s).1.path = s.path := rfl

theorem method_commandAt (options : Options) (components : Schema.Components) (s : Site) :
    (commandAt options components s).1.method = s.method.name := rfl

theorem lists_ofOutline (options : Options) (o : Outline) :
    Lists options o (ofDocument options (Document.ofOutline o)).1 := by
  rw [commands_ofDocument]
  refine ⟨?_, ?_, ?_⟩
  · intro path m htakes hsome
    obtain ⟨x, hx⟩ := Option.isSome_iff_exists.mp hsome
    have hsite : (⟨path, m, Operation.ofOutline x⟩ : Site) ∈
        sites options (Document.ofOutline o) := mem_sites_ofOutline.mpr ⟨htakes, x, hx, rfl⟩
    refine ⟨_, ⟨List.mem_map_of_mem hsite, path_commandAt _ _ _, method_commandAt _ _ _⟩, ?_⟩
    rintro c ⟨hc, hpath, hmethod⟩
    obtain ⟨s, hs, rfl⟩ := List.mem_map.mp hc
    rw [path_commandAt] at hpath
    rw [method_commandAt] at hmethod
    have hsame : s = ⟨path, m, Operation.ofOutline x⟩ :=
      eq_of_mem_sites hs hsite hpath (Document.Method.name_injective hmethod)
    rw [hsame]
  · intro c hc
    obtain ⟨s, hs, rfl⟩ := List.mem_map.mp hc
    obtain ⟨htakes, x, hx, _⟩ := mem_sites_ofOutline.mp hs
    rw [path_commandAt, method_commandAt]
    exact ⟨htakes, s.method, rfl, Option.isSome_iff_exists.mpr ⟨x, hx⟩⟩
  · apply List.pairwise_map.mpr
    apply (pairwise_sites options o).imp
    intro s t hbefore
    rw [Command.Before, path_commandAt, path_commandAt, method_commandAt, method_commandAt]
    exact hbefore.imp_left Text.Utf8.encode_lt_encode

/-- A document that lacks some of the operations of another one lacks just their commands. -/
theorem exists_compile_of_lacks {options : Options} {bytes bytes' : List UInt8} {d d' : Document}
    {gone : String → String → Bool} (h : Document.parse bytes = .ok d)
    (h' : Document.parse bytes' = .ok d')
    (hlacks : Document.Lacks gone (Outline.ofBytes bytes).1 (Outline.ofBytes bytes').1) :
    ∃ notices', compile options bytes' = .ok
      ((ofDocument options d).1.filter fun c => !gone c.path c.method, notices') := by
  obtain ⟨_, _, hd⟩ := Document.parse_eq_ok_iff.mp h
  obtain ⟨_, _, hd'⟩ := Document.parse_eq_ok_iff.mp h'
  refine ⟨(ofDocument options d').2, compile_eq_ok_iff.mpr ⟨d', h', Prod.ext ?_ rfl⟩⟩
  dsimp only
  rw [commands_ofDocument, commands_ofDocument, ← hd, ← hd', sites_of_lacks hlacks,
    List.filter_map, hlacks.schemas]
  simp only [Function.comp_def, path_commandAt, method_commandAt]

/-- Every document that can be read is compiled, to one command for each of its operations that is
taken. Without a path or an operation it is compiled to the same commands but for theirs, and so is
any other document that lacks some of the operations. -/
theorem exists_lists_of_parse (options : Options) {bytes : List UInt8} {d : Document}
    (h : Document.parse bytes = .ok d) :
    ∃ commands notices, compile options bytes = .ok (commands, notices) ∧
      Lists options (Outline.ofBytes bytes).1 commands ∧
      (∀ (r : Removal) (bytes' : List UInt8),
        Outline.ofBytes bytes' = (r.apply (Outline.ofBytes bytes).1, false) →
        ∃ notices', compile options bytes' =
          .ok (commands.filter fun c => !r.gone c.path c.method, notices')) ∧
      ∀ (gone : String → String → Bool) (bytes' : List UInt8) (d' : Document),
        Document.parse bytes' = .ok d' →
        Document.Lacks gone (Outline.ofBytes bytes).1 (Outline.ofBytes bytes').1 →
        ∃ notices', compile options bytes' =
          .ok (commands.filter fun c => !gone c.path c.method, notices') := by
  obtain ⟨hcheck, _, hd⟩ := Document.parse_eq_ok_iff.mp h
  refine ⟨(ofDocument options d).1, (ofDocument options d).2, compile_eq_ok_iff.mpr ⟨d, h, rfl⟩,
    hd ▸ lists_ofOutline options _, ?_, ?_⟩
  · intro r bytes' hbytes'
    have hread := Document.check_apply r hcheck
    have hlacks := Document.lacks_apply r (Outline.ofBytes bytes).1
    rw [show r.apply (Outline.ofBytes bytes).1 = (Outline.ofBytes bytes').1 by rw [hbytes']]
      at hread hlacks
    have h' := Document.parse_eq_ok_iff.mpr ⟨hread, by rw [hbytes'], rfl⟩
    exact exists_compile_of_lacks h h' hlacks
  · intro gone bytes' d' h' hlacks
    exact exists_compile_of_lacks h h' hlacks

/-- A document with paths and operations that are not in order, one of them null and one that is
never taken. -/
def fullDocument : List UInt8 := List.flatMap Text.Utf8.encode
  ["\x7b\"paths\":\x7b\"/api/v1/b\":\x7b\"delete\":\x7b\x7d,\"get\":\x7b\x7d\x7d,",
    "\"/api/v1/a\":\x7b\"get\":null,\"post\":\x7b\x7d\x7d,",
    "\"/api/v1/tools\":\x7b\"get\":\x7b\x7d\x7d\x7d\x7d"]

/-- The same document without one of the operations. -/
def thinnedDocument : List UInt8 := List.flatMap Text.Utf8.encode
  ["\x7b\"paths\":\x7b\"/api/v1/b\":\x7b\"get\":\x7b\x7d\x7d,",
    "\"/api/v1/a\":\x7b\"get\":null,\"post\":\x7b\x7d\x7d,",
    "\"/api/v1/tools\":\x7b\"get\":\x7b\x7d\x7d\x7d\x7d"]

def emptyOperation : Outline := .object [] none

def outlineOf (item : Outline) : Outline :=
  .object [(.ok "paths", .object [(.ok "/api/v1/b", item),
    (.ok "/api/v1/a", .object [(.ok "get", .null), (.ok "post", emptyOperation)] none),
    (.ok "/api/v1/tools", .object [(.ok "get", emptyOperation)] none)] none)] none

theorem ofBytes_fullDocument : Outline.ofBytes fullDocument =
    (outlineOf (.object [(.ok "delete", emptyOperation), (.ok "get", emptyOperation)] none),
      false) := by
  cbv

theorem ofBytes_thinnedDocument : Outline.ofBytes thinnedDocument =
    (outlineOf (.object [(.ok "get", emptyOperation)] none), false) := by
  cbv

def commandOf (name method path : String) : Command :=
  { name := name, parent := "", short := "", long := "", method := method, path := path
    params := [] }

theorem compile_fullDocument :
    compile {} fullDocument = .ok ([commandOf "a" "POST" "/api/v1/a",
      commandOf "b" "GET" "/api/v1/b", commandOf "b" "DELETE" "/api/v1/b"],
      [.excluded "/api/v1/tools", .compiled 3]) := by
  decide +kernel

theorem exists_lists_of_parse_thinned :
    ∃ commands notices, compile {} fullDocument = .ok (commands, notices) ∧
      Lists {} (Outline.ofBytes fullDocument).1 commands ∧
      ∃ notices', compile {} thinnedDocument = .ok (commands.filter fun c =>
        !(Removal.operation "/api/v1/b" .delete).gone c.path c.method, notices') := by
  obtain ⟨d, hparse, _⟩ := compile_eq_ok_iff.mp compile_fullDocument
  obtain ⟨commands, notices, hcompile, hlists, hremoval, _⟩ := exists_lists_of_parse {} hparse
  have hthinned : Outline.ofBytes thinnedDocument =
      ((Removal.operation "/api/v1/b" .delete).apply (Outline.ofBytes fullDocument).1, false) := by
    rw [ofBytes_thinnedDocument, ofBytes_fullDocument]
    rfl
  exact ⟨commands, notices, hcompile, hlists, hremoval _ thinnedDocument hthinned⟩

end Compile

end ApiCommands
