import ValueContract.Document.Item

namespace ValueContract.Document

inductive Clause
  | pair (path : List String) (key : String) (value : Item)
  | header (path : List String) (key : String)
  | arrayHeader (path : List String) (key : String)

namespace Table

def item? (t : Table) (key : String) : Option Item :=
  List.lookup key t

def setItem (t : Table) (key : String) (item : Item) : Table :=
  t.map fun entry ↦ if entry.1 = key then (key, item) else entry

def changeLast (change : Table → Option Table) : List Table → Option (List Table)
  | [] => none
  | [t] => (change t).map ([·])
  | t :: ts => (changeLast change ts).map (t :: ·)

/-- Puts a value under a dotted key. Tables on the path are made as `made`, and the one that gets
the value has to be of that kind unless the path is empty. -/
def put (made : TableKind) (key : String) (value : Item) (t : Table) :
    List String → Option Table
  | [] => if (t.item? key).isSome then none else some (t ++ [(key, value)])
  | step :: path =>
    match t.item? step with
    | none => (put made key value [] path).map fun inner ↦ t ++ [(step, .table made inner)]
    | some (.table kind inner) =>
      if kind = made || (kind = .implied && path ≠ []) then
        (put made key value inner path).map fun inner ↦ t.setItem step (.table kind inner)
      else none
    | some (.tables elements) =>
      if path = [] then none
      else
        (changeLast (fun inner ↦ put made key value inner path) elements).map fun elements ↦
          t.setItem step (.tables elements)
    | some _ => none

/-- Changes the table at the end of a path of headers, making what is not there. Of tables opened
under one name the last is meant, and a table in braces is closed. -/
def changeAt (change : Table → Option Table) (t : Table) : List String → Option Table
  | [] => change t
  | step :: path =>
    match t.item? step with
    | none => (changeAt change [] path).map fun inner ↦ t ++ [(step, .table .implied inner)]
    | some (.table kind inner) =>
      if kind = .inline || kind = .inlineDotted then none
      else (changeAt change inner path).map fun inner ↦ t.setItem step (.table kind inner)
    | some (.tables elements) =>
      (changeLast (fun inner ↦ changeAt change inner path) elements).map fun elements ↦
        t.setItem step (.tables elements)
    | some _ => none

/-- A header may claim a table that was only named on the way so far. -/
def openTable (key : String) (t : Table) : Option Table :=
  match t.item? key with
  | none => some (t ++ [(key, .table .header [])])
  | some (.table .implied inner) => some (t.setItem key (.table .header inner))
  | some _ => none

def openElement (key : String) (t : Table) : Option Table :=
  match t.item? key with
  | none => some (t ++ [(key, .tables [[]])])
  | some (.tables elements) => some (t.setItem key (.tables (elements ++ [[]])))
  | some _ => none

structure Draft where
  root : Table := []
  current : List String := []

def Draft.add (d : Draft) : Clause → Option Draft
  | .pair path key value =>
    (d.root.changeAt (fun t ↦ t.put .dotted key value path) d.current).map
      fun root ↦ { d with root }
  | .header path key =>
    (d.root.changeAt (openTable key) path).map fun root ↦ ⟨root, path ++ [key]⟩
  | .arrayHeader path key =>
    (d.root.changeAt (openElement key) path).map fun root ↦ ⟨root, path ++ [key]⟩

def ofClauses (clauses : List Clause) : Option Table :=
  (clauses.foldlM Draft.add {}).map (·.root)

end Table

end ValueContract.Document
