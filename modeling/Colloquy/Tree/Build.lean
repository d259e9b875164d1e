import Colloquy.Tree.Basic

/-!
# Writing trees by hand

Short names for the nodes that the class library and the sample programs are made of.  Each takes
the position of its key token as a line and a column.
-/

namespace Colloquy.Tree

/-- A place in a source text. -/
def pos (line column : UInt32) : Position := ⟨line, column⟩

def int (n : Int32) : Expr := .literal (.int n)

def string (s : String) : Expr := .literal (.string s)

def bool (b : Bool) : Expr := .literal (.bool b)

def char (c : Char) : Expr := .literal (.char c)

def float (bits : UInt32) : Expr := .literal (.float ⟨bits⟩)

/-- A name, at no place in particular. -/
def var (s : String) : Expr := .ident { name := s }

/-- A message at no place in particular. -/
def send (receiver : Expr) (selector : String) (args : List Expr) : Expr :=
  .send receiver selector args {}

/-- A message whose selector stands at the given place. -/
def sendAt (line column : UInt32) (receiver : Expr) (selector : String) (args : List Expr) : Expr :=
  .send receiver selector args (pos line column)

def assignAt (line column : UInt32) (target : String) (value : Expr) : Stat :=
  .assign { name := target, position := pos line column } value (pos line column)

def retAt (line column : UInt32) (value : Expr) : Stat := .ret value (pos line column)

/-- A block that ends just before the given place. -/
def block (args : List String) (stats : List Stat) (line column : UInt32) : Expr :=
  .block { args, stop := pos line column } stats

/-- Statements that end just before the given place. -/
def body (stats : List Stat) (line column : UInt32) : Body := { stats, stop := pos line column }

/-- A method given by its statements. -/
def method (selector : String) (args : List String) (b : Body) : Method :=
  { selector, args, kind := .code b }

/-- A method that the machine carries out. -/
def primitive (selector : String) (args : List String) (tag : String) : Method :=
  { selector, args, kind := .primitive tag }

/-- The same method, understood by the class itself. -/
def classSide (m : Method) : Method := { m with classSide := true }

end Colloquy.Tree
