import Colloquy.Number.Single
import Colloquy.Position
import Colloquy.Text.Quoted

/-!
# Program trees

A program is a list of classes and an optional main body.  Name resolution fills in three kinds of
annotation: the scope of a method, main body or block, the number of a block within its method, and
the symbol that an identifier refers to.  A fresh tree has none of them.
-/

namespace Colloquy

/-- Scopes are numbered in the order in which they are created.  The numbers are not cut down to 32
bits: in a tree with no more scopes than that, they all fit. -/
abbrev ScopeId := Nat

/-- What a name refers to. -/
inductive Symbol where
  | global
  | field (index : UInt16)
  | slot (scope : ScopeId) (index : UInt16)
deriving DecidableEq, Inhabited

/-- An occurrence of a name. -/
structure Ident where
  name : String
  position : Position := {}
  symbol : Option Symbol := none
deriving DecidableEq, Inhabited

/-- A constant. -/
inductive Literal where
  | nil
  | bool (value : Bool)
  | int (value : Int32)
  | float (value : Single)
  | char (value : Char)
  | string (value : String)
deriving DecidableEq, Inhabited

/-- The constant that a quoted token stands for. -/
def Literal.ofToken (t : String) : Literal := .string (Text.unquote t)

/-- Everything about a block literal but its statements.  `stop` is the place just past the block's
closing bracket. -/
structure BlockHead where
  args : List String := []
  locals : List String := []
  stop : Position := {}
  index : UInt16 := 0
  scope : Option ScopeId := none
deriving DecidableEq, Inhabited

mutual

/-- Expressions. -/
inductive Expr where
  | literal (value : Literal)
  | self
  | ident (name : Ident)
  | array (items : List Expr)
  | block (head : BlockHead) (body : List Stat)
  /-- A message with its receiver; `position` is that of the selector. -/
  | send (receiver : Expr) (selector : String) (args : List Expr) (position : Position)
  /-- A message to `self` that starts looking above the class of the running method. -/
  | superSend (selector : String) (args : List Expr) (position : Position)

/-- Statements. -/
inductive Stat where
  | expr (value : Expr)
  | assign (target : Ident) (value : Expr) (position : Position)
  | ret (value : Expr) (position : Position)

end

instance : Inhabited Expr := ⟨.self⟩

instance : Inhabited Stat := ⟨.expr .self⟩

/-- A sequence of statements.  `stop` is the place just past the body's closing bracket. -/
structure Body where
  stats : List Stat := []
  stop : Position := {}
deriving Inhabited

/-- How a method is carried out. -/
inductive MethodKind where
  /-- By the machine itself, under the given tag. -/
  | primitive (tag : String)
  | code (body : Body)
deriving Inhabited

structure Method where
  selector : String
  /-- Whether the method is understood by the class itself and not by its instances. -/
  classSide : Bool := false
  args : List String := []
  locals : List String := []
  kind : MethodKind
  scope : Option ScopeId := none
deriving Inhabited

structure ClassDef where
  name : String
  superclass : Option String := none
  fields : List String := []
  methods : List Method := []
deriving Inhabited

structure MainBody where
  locals : List String := []
  body : Body := {}
  scope : Option ScopeId := none
deriving Inhabited

/-- Classes, each after its superclass, and the code to start with. -/
structure Program where
  classes : List ClassDef := []
  main : Option MainBody := none
deriving Inhabited

/-- The class that every other class inherits from. -/
def rootClass : String := "Object"

/-- The class that holds the main body as a method. -/
def mainClass : String := "MainClass"

/-- The selector of the main body. -/
def mainSelector : String := "main"

end Colloquy
