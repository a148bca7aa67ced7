import ValueContract.Class.Custom
import ValueContract.Class.Refusal
import ValueContract.Class.Member
import ValueContract.Settings

namespace ValueContract

structure ClassUnit where
  entity : String
  settings : Settings
  includes : List String
  /-- Entities that the class names, other than its own. -/
  dependencies : List String
  fields : List ClassField
  members : List Member
  methods : List CustomMethod
  deriving DecidableEq, Repr

namespace ClassUnit

def headerNameOf (entity : String) : String := entity ++ ".hpp"

variable (u : ClassUnit)

def headerName : String := headerNameOf u.entity

def implementationName : String := u.entity ++ "_generated_impl.cpp"

def customName : String := u.entity ++ "_custom_impl.cpp"

def commentLines : List Line :=
  (Marker.commentLines u.settings.marker).map (⟨0, ·⟩)

/-- A group of lines that is set off from its neighbours unless it is empty. -/
def group (before after lines : List Line) : List Line :=
  if lines = [] then [] else before ++ lines ++ after

def headerLines : List Line :=
  ⟨0, "#pragma once"⟩ :: u.commentLines ++ u.includes.map (⟨0, ·⟩) ++ [⟨0, ""⟩] ++
    group [] [⟨0, ""⟩] (u.dependencies.map fun d ↦ ⟨0, "class " ++ d ++ ";"⟩) ++
    [⟨0, "class " ++ u.entity⟩, ⟨0, "\x7b"⟩, ⟨0, "public:"⟩] ++
    group [] [⟨0, ""⟩] (u.fields.map fun f ↦ ⟨1, f.declaration⟩) ++
    u.members.map (fun m ↦ ⟨1, m.declaration⟩) ++
    group [⟨0, ""⟩] [] (u.methods.map fun m ↦ ⟨1, m.declaration⟩) ++ [⟨0, "\x7d;"⟩]

def includeLine (entity : String) : Line :=
  ⟨0, "#include \"" ++ u.settings.includePath ++ headerNameOf entity ++ "\""⟩

def includeLines : List Line :=
  (u.entity :: u.dependencies).map u.includeLine

def implementationLines : List Line :=
  u.commentLines ++ [⟨0, ""⟩] ++ u.includeLines ++ [⟨0, ""⟩] ++
    u.members.flatMap (·.definition u.entity)

def print (lines : List Line) : String :=
  Line.document u.settings.indent.step lines

def header : String := u.print u.headerLines

def implementation : String := u.print u.implementationLines

/-- The file of hand-written methods: what is there already, or else the include lines, with a
stub for each method that does not occur in it. It carries no marker since people edit it. -/
def customFile (existing : Option String) : String :=
  u.methods.foldl (CustomMethod.appendStub u.settings.indent.step)
    (existing.getD (u.print u.includeLines))

def fileNames : List String := [u.headerName, u.implementationName, u.customName]

end ClassUnit

end ValueContract
