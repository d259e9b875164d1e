import Colloquy.Compile.Error
import Colloquy.Tree.Basic

/-!
# Scopes

The scopes of a program form a tree: the global scope at the root, below it the classes, below each
class its methods, and below those the blocks.  Methods and blocks have variables, their arguments
first and then their locals; the place of a variable in that list is its slot.
-/

namespace Colloquy

inductive ScopeKind where
  | global
  | cls
  | method (classSide : Bool)
  | block (index : UInt16)
deriving DecidableEq, Inhabited

structure Scope where
  name : String
  kind : ScopeKind
  parent : Option ScopeId
  /-- Arguments, then locals. -/
  vars : List String := []
  nargs : Nat := 0
deriving Inhabited

/-- All scopes of a program by number. -/
structure ScopeTree where
  scopes : Array Scope
deriving Inhabited

namespace ScopeTree

/-- The number of the global scope. -/
def globalId : ScopeId := 0

/-- The tree of a program without classes. -/
def empty : ScopeTree := ⟨#[{ name := "global", kind := .global, parent := none }]⟩

def get? (t : ScopeTree) (id : ScopeId) : Option Scope := t.scopes[id]?

def size (t : ScopeTree) : Nat := t.scopes.size

def parent? (t : ScopeTree) (id : ScopeId) : Option ScopeId := (t.get? id).bind (·.parent)

/-- The tree with one more scope, and the number of that scope. -/
def add (t : ScopeTree) (s : Scope) : ScopeTree × ScopeId :=
  let id := t.scopes.size
  (⟨t.scopes.push s⟩, id)

/-- The name of a scope below the scope with number `parent`, with the parent's name in front
unless that is the global scope. -/
def qualify (t : ScopeTree) (parent : Option ScopeId) (name : String) : String :=
  match parent.bind t.get? with
  | some above => if above.kind = .global then name else above.name ++ ">>" ++ name
  | none => name

/-- `Class>>selector` for a method, `outer>>block` for a block. -/
def qualifiedName (t : ScopeTree) (id : ScopeId) : Option String :=
  (t.get? id).map fun s => t.qualify s.parent s.name

/-- Hops from `source` up to `target`, with `depth` hops made before.  A parent is always numbered
before its children, which is why the climb ends. -/
def climb (t : ScopeTree) (target source : ScopeId) (depth : Nat) : Option Nat :=
  if source = target then some depth
  else
    match t.parent? source with
    | none => none
    | some above =>
      if above < source && depth < 65535 then t.climb target above (depth + 1) else none
termination_by source
decreasing_by simp_all

/-- The number of hops from `source` up to the enclosing scope `target`, if it encloses it and the
number fits in a short. -/
def relativeDepth (t : ScopeTree) (source target : ScopeId) : Option Nat := t.climb target source 0

end ScopeTree

end Colloquy
