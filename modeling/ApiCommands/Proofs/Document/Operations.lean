import ApiCommands.Document.Basic
import ApiCommands.Proofs.Json.Fits

namespace ApiCommands

/-!
# The operations of a document

A document that can be read holds what its outline tells. Under each path stands the last item of
that path, with the operations that are present and not null, in the order of their methods.
-/

open Json (Outline)

namespace Document

theorem read_eq_ok_iff {o : Outline} {d : Document} : read o = .ok d ↔
    o.check records Json.nestingLimit (.record .document) = .ok () ∧ ofOutline o = d := by
  rw [read]
  cases o.check records Json.nestingLimit (.record .document) <;> simp [Except.map]

theorem parse_eq_ok_iff {bytes : List UInt8} {d : Document} :
    Document.parse bytes = .ok d ↔
      (Outline.ofBytes bytes).1.check records Json.nestingLimit (.record .document) = .ok () ∧
        (Outline.ofBytes bytes).2 = false ∧ ofOutline (Outline.ofBytes bytes).1 = d := by
  rw [Document.parse, Outline.readWhole_eq_ok_iff, read_eq_ok_iff, and_assoc,
    and_comm (a := ofOutline _ = d)]

/-- What a document has at a path. -/
def itemAt (o : Outline) (path : String) : Option Outline :=
  (tableField .document "paths" o).reverse.lookup path

/-- The operation that a document has for a method at a path, unless it is missing or null. -/
def operationAt (o : Outline) (path : String) (m : Method) : Option Outline :=
  (itemAt o path).bind (recordField .pathItem m.key)

theorem mem_paths {o : Outline} {path : String} {item : PathItem} :
    (path, item) ∈ (ofOutline o).paths ↔
      ∃ x, itemAt o path = some x ∧ PathItem.ofOutline x = item := by
  rw [ofOutline, Table.mem_ofList, ← List.map_reverse]
  exact (lookup_map_entry (fun _ => PathItem.ofOutline) path _).symm ▸ Option.map_eq_some_iff

theorem mem_pathItem {o : Outline} {m : Method} {op : Operation} :
    (m, op) ∈ PathItem.ofOutline o ↔
      ∃ x, recordField .pathItem m.key o = some x ∧ Operation.ofOutline x = op := by
  rw [PathItem.ofOutline, List.mem_filterMap]
  constructor
  · rintro ⟨m', _, h⟩
    obtain ⟨x, hx, heq⟩ := Option.map_eq_some_iff.mp h
    cases heq
    exact ⟨x, hx, rfl⟩
  · rintro ⟨x, hx, rfl⟩
    exact ⟨m, m.mem_all, by rw [hx, Option.map_some]⟩

/-- The names of the methods in the order of their commands. -/
def methodOrder : List String := ["GET", "POST", "PUT", "PATCH", "DELETE"]

def rank (name : String) : Nat := methodOrder.idxOf name

theorem pairwise_pathItem (o : Outline) :
    (PathItem.ofOutline o).Pairwise fun e e' => rank e.1.name < rank e'.1.name := by
  have hall : Method.all.Pairwise fun m m' => rank m.name < rank m'.name := by decide
  rw [PathItem.ofOutline, List.pairwise_filterMap]
  apply hall.imp
  intro m m' hlt e he e' he'
  obtain ⟨_, _, rfl⟩ := Option.map_eq_some_iff.mp he
  obtain ⟨_, _, rfl⟩ := Option.map_eq_some_iff.mp he'
  exact hlt

theorem Method.name_injective : Function.Injective Method.name := by
  intro m m' h
  cases m <;> cases m' <;> first | rfl | (revert h; decide)

end Document

end ApiCommands
