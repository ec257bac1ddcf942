import ApiCommands.Schema.Node

namespace ApiCommands.Document

/-!
# The format of API documents

The records of a document that commands are made from, and their fields.
-/

open Json (Shape Records)

inductive Record where
  | document
  | components
  | pathItem
  | operation
  | parameter
  | requestBody
  | mediaType
  | schema
deriving DecidableEq, Repr

def Record.fields : Record → List (String × Shape Record)
  | document => [("paths", .table (.record .pathItem)), ("components", .record .components)]
  | components => [("schemas", .table (.record .schema))]
  | pathItem =>
    [("get", .record .operation), ("post", .record .operation), ("put", .record .operation),
      ("patch", .record .operation), ("delete", .record .operation)]
  | operation =>
    [("summary", .text), ("description", .text), ("parameters", .list (.record .parameter)),
      ("requestBody", .record .requestBody)]
  | parameter =>
    [("name", .text), ("in", .text), ("required", .flag), ("description", .text),
      ("schema", .record .schema)]
  | requestBody => [("content", .table (.record .mediaType))]
  | mediaType => [("schema", .record .schema)]
  | schema => Schema.nodeFields (.record .schema)

def records : Records Record := ⟨Record.fields, fun _ => true⟩

/-- The records that name the version of a document. -/
inductive VersionRecord where
  | document
  | info
deriving DecidableEq, Repr

def VersionRecord.fields : VersionRecord → List (String × Shape VersionRecord)
  | document => [("info", .record .info)]
  | info => [("version", .text)]

def versionRecords : Records VersionRecord := ⟨VersionRecord.fields, fun _ => false⟩

end ApiCommands.Document
