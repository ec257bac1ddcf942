namespace ApiCommands

/-!
# Commands

A command sends one method to one path. Its parameters travel in the path, the query or the body.
-/

inductive Location where
  | path
  | query
  | body
deriving DecidableEq, Repr

inductive ParamType where
  | string
  | integer
  | number
  | boolean
  | object
  | array
deriving DecidableEq, Repr

namespace Location

def name : Location → String
  | path => "path"
  | query => "query"
  | body => "body"

def all : List Location := [path, query, body]

def ofName? (s : String) : Option Location := all.find? (·.name == s)

end Location

namespace ParamType

def name : ParamType → String
  | string => "string"
  | integer => "integer"
  | number => "number"
  | boolean => "boolean"
  | object => "object"
  | array => "array"

def all : List ParamType := [string, integer, number, boolean, object, array]

def ofName? (s : String) : Option ParamType := all.find? (·.name == s)

end ParamType

structure Param where
  name : String
  description : String := ""
  type : ParamType := .string
  required : Bool := false
  location : Location
  /-- The values that are allowed, all where there are none. -/
  choices : List String := []
deriving DecidableEq, Repr

structure Command where
  name : String
  /-- Empty for a command of the top level. -/
  parent : String
  short : String
  long : String
  method : String
  path : String
  params : List Param
deriving DecidableEq, Repr

theorem Location.ofName?_name (l : Location) : Location.ofName? l.name = some l := by
  cases l <;> decide

theorem ParamType.ofName?_name (t : ParamType) : ParamType.ofName? t.name = some t := by
  cases t <;> decide

end ApiCommands
