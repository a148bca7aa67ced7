import ValueContract.Text

namespace ValueContract

inductive Language
  | cpp
  deriving DecidableEq, Repr

namespace Language

def all : List Language := [cpp]

def name : Language → String
  | cpp => "cpp"

/-- Reads a name, also by its second spelling `c++`. -/
def ofName? : String → Option Language
  | "cpp" | "c++" => some cpp
  | _ => none

end Language

inductive Indent
  | tab
  | spaces (width : UInt8)
  deriving DecidableEq, Repr

namespace Indent

def step : Indent → String
  | tab => "\t"
  | spaces width => Text.repeated " " width.toNat

def text : Indent → String
  | tab => "tab"
  | spaces width => s!"{width.toNat} spaces"

end Indent

structure Settings where
  language : Language := .cpp
  marker : String := "This file was generated by wc-gen. Do not modify this file manually."
  indent : Indent := .tab
  includePath : String := "../"
  deriving DecidableEq, Repr

end ValueContract
