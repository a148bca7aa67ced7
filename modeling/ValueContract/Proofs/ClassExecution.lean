import Mathlib.Data.List.Nodup
import ValueContract.Proofs.StatementReading
import ValueContract.Value.Basic

/-!
Running the members of generated classes on objects. An object owns what its fields point to, so
objects are trees; statements are run in the order of the lines that they are read from, and what
the language leaves undefined, like reading a field that was never set, has no result.
-/

namespace ValueContract

inductive Datum
  | unset
  | integer (n : Int)
  | float (x : Binary64)
  | bool (b : Bool)
  | text (s : String)
  | vector (items : List Datum)
  | object (type : String) (members : List (String × Datum))
  | pointer (target : Datum)

namespace Datum

def target? : Datum → Option Datum
  | pointer target => some target
  | _ => none

def ofZero? (zero : String) : Option Datum :=
  if zero = "0" then some (integer 0)
  else if zero = "0.0" ∨ zero = "0.0f" then some (float .zero)
  else if zero = "false" then some (bool false)
  else if zero = "std::string()" then some (text "")
  else if "std::vector<".toList <+: zero.toList ∧ ">()".toList <:+ zero.toList then
    some (vector [])
  else none

def store? (name : String) (d : Datum) : List (String × Datum) → Option (List (String × Datum))
  | [] => none
  | (other, old) :: members =>
    if other = name then some ((name, d) :: members)
    else ((other, old) :: ·) <$> store? name d members

variable {name : String} {d old : Datum} {before after members : List (String × Datum)}

theorem store?_append (h : name ∉ before.map Prod.fst) :
    store? name d (before ++ (name, old) :: after) = some (before ++ (name, d) :: after) := by
  induction before with
  | nil => simp [store?]
  | cons first before ih =>
    rw [List.map_cons, List.mem_cons, not_or] at h
    have hne : first.1 ≠ name := Ne.symm h.1
    simp [store?, hne, ih h.2]

theorem lookup_append (h : name ∉ before.map Prod.fst) :
    (before ++ (name, d) :: after).lookup name = some d := by
  rw [List.lookup_eq_some_iff]
  refine ⟨before, after, rfl, fun first hf ↦ ?_⟩
  have hne : name ≠ first.1 := fun heq ↦ h (heq ▸ List.mem_map_of_mem hf)
  simpa using hne

theorem not_mem_of_nodup (h : ((before ++ (name, d) :: after).map Prod.fst).Nodup) :
    name ∉ before.map Prod.fst := by
  rw [List.map_append, List.map_cons, List.nodup_append_comm, List.cons_append, List.nodup_cons,
    List.mem_append, not_or] at h
  exact h.1.2

theorem lookup_of_mem (hn : (members.map Prod.fst).Nodup) (h : (name, d) ∈ members) :
    members.lookup name = some d := by
  obtain ⟨before, after, rfl⟩ := List.append_of_mem h
  exact lookup_append (not_mem_of_nodup hn)

end Datum

def ClassUnit.blank (u : ClassUnit) : List (String × Datum) :=
  u.fields.map fun f ↦ (f.name, .unset)

abbrev Program := String → Option ClassUnit

namespace Program

def initialise (create : String → Option Datum) (this : List (String × Datum)) :
    Statement → Option (List (String × Datum))
  | .setZero field zero => do Datum.store? field (← Datum.ofZero? zero) this
  | .allocate field entity => do Datum.store? field (.pointer (← create entity)) this
  | _ => none

def copyLine (duplicate : Datum → Option Datum) (copyTo : Datum → Datum → Option Datum)
    (this other : List (String × Datum)) : Statement → Option (List (String × Datum))
  | .copyValue field => do Datum.store? field (← duplicate (← this.lookup field)) other
  | .copyPointee field => do
    let inner ← (← this.lookup field).target?
    let into ← (← other.lookup field).target?
    Datum.store? field (.pointer (← copyTo inner into)) other
  | _ => none

def compare (equal : Datum → Datum → Option Bool) (this other : List (String × Datum)) :
    Comparison → Option Bool
  | .values field => do equal (← this.lookup field) (← other.lookup field)
  | .pointees field => do
    equal (← (← this.lookup field).target?) (← (← other.lookup field).target?)

variable (p : Program)

def body? (type : String) (role : MemberRole) : Option (List Statement) := do
  (← p type).body? role

/-- A new object after its default constructor. The first argument bounds how deep calls nest, here
and below. -/
def construct : Nat → String → Option Datum
  | 0, _ => none
  | fuel + 1, type => do
    let u ← p type
    let members ← (← u.body? .defaultConstructor).foldlM (initialise (construct fuel)) u.blank
    return .object type members

def beforeCopy (fuel : Nat) (type : String) : Option Datum := do
  let u ← p type
  if (← u.member? .copyConstructor).delegates then p.construct fuel type
  else some (.object type u.blank)

mutual

def copyTo : Nat → (this other : Datum) → Option Datum
  | fuel + 1, .object type this, .object type' other =>
    if type = type' then do
      let members ← (← p.body? type .copyTo).foldlM
        (copyLine (duplicate fuel) (copyTo fuel) this) other
      return .object type members
    else none
  | _, _, _ => none

/-- A copy of a value. Vectors copy their elements, and objects have a copy constructor. A pointer
is not copied, since its target would have two owners. -/
def duplicate : Nat → Datum → Option Datum
  | fuel + 1, .vector items => .vector <$> items.mapM (duplicate fuel)
  | fuel + 1, .object type members => do
    (← p.body? type .copyConstructor).foldlM
      (fun this st ↦
        if st = .copyFromOther then copyTo fuel (.object type members) this else none)
      (← p.beforeCopy fuel type)
  | _, .integer n => some (.integer n)
  | _, .float x => some (.float x)
  | _, .bool b => some (.bool b)
  | _, .text s => some (.text s)
  | _, _ => none

end

/-- Equality as generated classes have it, vectors element by element. -/
def equal : Nat → Datum → Datum → Option Bool
  | _, .integer m, .integer n => some (m = n)
  | _, .float x, .float y => some (x.equal y)
  | _, .bool a, .bool b => some (a = b)
  | _, .text s, .text t => some (s = t)
  | fuel + 1, .vector xs, .vector ys =>
    if xs.length = ys.length then (xs.zip ys).allM fun xy ↦ equal fuel xy.1 xy.2 else some false
  | fuel + 1, .object type this, .object type' other =>
    if type = type' then do
      match ← p.body? type .equality with
      | [.returnEqual comparisons] => comparisons.allM (compare (equal fuel) this other)
      | _ => none
    else none
  | _, _, _ => none

variable {p} {fuel : Nat} {type : String} {u : ClassUnit} {statements : List Statement} {m : Member}
  {this other members : List (String × Datum)}

theorem construct_succ (hu : p type = some u)
    (hb : u.body? .defaultConstructor = some statements) :
    p.construct (fuel + 1) type =
      (statements.foldlM (initialise (p.construct fuel)) u.blank).map (.object type) := by
  simp only [construct, hu, hb, Option.bind_eq_bind, Option.bind_some, Option.pure_def,
    Option.map_eq_bind, Function.comp_def]

theorem copyTo_succ (hu : p type = some u) (hb : u.body? .copyTo = some statements) :
    p.copyTo (fuel + 1) (.object type this) (.object type other) =
      (statements.foldlM (copyLine (p.duplicate fuel) (p.copyTo fuel) this) other).map
        (.object type) := by
  simp only [copyTo, if_true, body?, hu, hb, Option.bind_eq_bind, Option.bind_some,
    Option.pure_def, Option.map_eq_bind, Function.comp_def]

theorem duplicate_succ (hu : p type = some u) (hm : u.member? .copyConstructor = some m)
    (hd : m.delegates) (hb : u.body? .copyConstructor = some [.copyFromOther]) :
    p.duplicate (fuel + 1) (.object type members) =
      p.construct fuel type >>= p.copyTo fuel (.object type members) := by
  simp [duplicate, body?, hu, hb, beforeCopy, hm, hd]

theorem equal_succ {comparisons : List Comparison} (hu : p type = some u)
    (hb : u.body? .equality = some [.returnEqual comparisons]) :
    p.equal (fuel + 1) (.object type this) (.object type other) =
      comparisons.allM (compare (p.equal fuel) this other) := by
  simp [equal, body?, hu, hb]

/-- Each line sets the member at its own place, whatever stands around it. -/
inductive Writes (run : List (String × Datum) → Statement → Option (List (String × Datum))) :
    List Statement → (old new : List (String × Datum)) → Prop
  | nil : Writes run [] [] []
  | cons {st : Statement} {statements : List Statement} {name : String} {d d' : Datum}
      {old new : List (String × Datum)}
      (h : ∀ before after, name ∉ before.map Prod.fst →
        run (before ++ (name, d) :: after) st = some (before ++ (name, d') :: after))
      (hr : Writes run statements old new) :
      Writes run (st :: statements) ((name, d) :: old) ((name, d') :: new)

variable {run : List (String × Datum) → Statement → Option (List (String × Datum))}
  {old new : List (String × Datum)}

theorem Writes.foldlM_append (h : Writes run statements old new) (before : List (String × Datum))
    (hn : ((before ++ new).map Prod.fst).Nodup) :
    statements.foldlM run (before ++ old) = some (before ++ new) := by
  induction h generalizing before with
  | nil => rfl
  | @cons st statements name d d' old new h _ ih =>
    rw [List.foldlM_cons, h before old (Datum.not_mem_of_nodup hn), Option.bind_eq_bind,
      Option.bind_some]
    rw [List.append_cons before _ new] at hn ⊢
    rw [List.append_cons before _ old, ih _ hn]

theorem Writes.foldlM_eq (h : Writes run statements old new) (hn : (new.map Prod.fst).Nodup) :
    statements.foldlM run old = some new :=
  h.foldlM_append [] hn

end Program

end ValueContract
