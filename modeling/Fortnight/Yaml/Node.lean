import Fortnight.Yaml.Tag

/-!
# Nodes of a YAML document

A node is a scalar, a list, a mapping or a reference, which stands for the node that
an anchor marks. Anchors are kept as numbers: a name that is used for an anchor
gets the count of the names before, and a reference to a number means the last
node of the document that is marked with it.
-/

namespace Fortnight

namespace Yaml

/-- What may be written before a node. -/
structure Marks where
  anchor : Option Nat
  tag : Option Tag
  deriving DecidableEq

namespace Marks

def none : Marks := ⟨.none, .none⟩

end Marks

inductive Node where
  | scalar (marks : Marks) (plain : Bool) (text : String)
  | list (marks : Marks) (items : List Node)
  | mapping (marks : Marks) (members : List (Node × Node))
  | reference (anchor : Nat)

namespace Node

/-- What stands where nothing is written. -/
def empty : Node := scalar .none true ""

def marks : Node → Marks
  | scalar marks _ _ | list marks _ | mapping marks _ => marks
  | reference _ => .none

mutual

/-- The node and those within it, in the order in which they begin. -/
def all : Node → List Node
  | scalar marks plain content => [scalar marks plain content]
  | list marks items => list marks items :: allItems items
  | mapping marks members => mapping marks members :: allMembers members
  | reference anchor => [reference anchor]

def allItems : List Node → List Node
  | [] => []
  | n :: rest => n.all ++ allItems rest

def allMembers : List (Node × Node) → List Node
  | [] => []
  | (k, v) :: rest => k.all ++ v.all ++ allMembers rest

end

/-- How many steps it takes to go through a node: one for a scalar or a reference,
and two for the beginning and the end of anything else. -/
def steps : Node → Nat
  | scalar .. | reference .. => 1
  | list .. | mapping .. => 2

/-- How many steps it takes to go through a node and all within it. -/
def totalSteps (n : Node) : Nat :=
  (n.all.map steps).foldl (· + ·) 0

/-- The nodes with an anchor, the last one first. -/
def anchored (n : Node) : List (Nat × Node) :=
  (n.all.filterMap fun m => m.marks.anchor.map fun a => (a, m)).reverse

end Node

end Yaml

end Fortnight
