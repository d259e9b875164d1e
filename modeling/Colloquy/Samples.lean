import Colloquy.Tree.Build

/-!
# Sample programs

Small programs that show one feature each.  The positions are those of the source in the comment of
each program.
-/

namespace Colloquy

/-- A named program. -/
structure Sample where
  name : String
  description : String
  program : Program

namespace Sample

open Colloquy.Tree

/-- Writes a value to the transcript. -/
def write (value : Expr) : Stat := .expr (send (var "Transcript") "show:" [value])

/-- A program with a main body. -/
def withMain (classes : List ClassDef) (locals : List String) (body : Body) : Program :=
  { classes, main := some { locals, body } }

/--
`3 + 4`
-/
def arith : Program :=
  withMain [] [] (body [.expr (sendAt 1 2 (int 3) "+" [int 4])] 1 5)

/--
```text
class Counter [
    |n|
    init [ n := 0 ]
    incr [ n := n + 1 ]
    value [ ^n ]
]
```
-/
def counterClass : ClassDef where
  name := "Counter"
  fields := ["n"]
  methods := [
    method "init" [] (body [assignAt 3 11 "n" (int 0)] 3 20),
    method "incr" [] (body [assignAt 4 11 "n" (sendAt 4 20 (var "n") "+" [int 1])] 4 26),
    method "value" [] (body [retAt 5 12 (var "n")] 5 17)]

/--
After the class `Counter`: `c := Counter new. c init. c incr. c incr. c value`
-/
def counter : Program :=
  withMain [counterClass] ["c"] <| body [
    assignAt 7 0 "c" (sendAt 7 13 (var "Counter") "new" []),
    .expr (sendAt 7 20 (var "c") "init" []),
    .expr (sendAt 7 28 (var "c") "incr" []),
    .expr (sendAt 7 36 (var "c") "incr" []),
    .expr (sendAt 7 44 (var "c") "value" [])] 7 49

/--
```text
class Maker [ make [ ^[:x | x + 1] ] ]
b := Maker new make.
Transcript show: (b value: 5).
b value: 10
```
-/
def closure : Program :=
  let increment := block ["x"] [.expr (sendAt 1 30 (var "x") "+" [int 1])] 1 34
  let maker : ClassDef :=
    { name := "Maker", methods := [method "make" [] (body [retAt 1 21 increment] 1 36)] }
  withMain [maker] ["b"] <| body [
    assignAt 2 0 "b" (sendAt 2 15 (send (var "Maker") "new" []) "make" []),
    write (sendAt 3 20 (var "b") "value:" [int 5]),
    .expr (sendAt 4 2 (var "b") "value:" [int 10])] 4 11

/--
```text
class Finder [ pick: flag [ flag ifTrue: [^'yes']. ^'no' ] ]
Transcript show: (Finder new pick: true).
Finder new pick: false
```
-/
def nonlocal : Program :=
  let yes := block [] [retAt 1 42 (string "yes")] 1 49
  let finder : ClassDef :=
    { name := "Finder"
      methods := [method "pick:" ["flag"] <| body [
        .expr (sendAt 1 33 (var "flag") "ifTrue:" [yes]),
        retAt 1 51 (string "no")] 1 57] }
  let new := send (var "Finder") "new" []
  withMain [finder] [] <| body [
    write (sendAt 2 29 new "pick:" [bool true]),
    .expr (sendAt 3 11 new "pick:" [bool false])] 3 22

/--
```text
class A [ name [ ^'A' ] ]
class B : A [ name [ ^super name , 'B' ] ]
class C : B [ name [ ^super name , 'C' ] ]
C new name
```
-/
def superChain : Program :=
  let named (cls : String) (above : Option String) (line : UInt32) (value : Expr) : ClassDef :=
    { name := cls
      superclass := above
      methods := [method "name" [] { stats := [retAt line 21 value] }] }
  let longer (cls : String) (line : UInt32) : Expr :=
    sendAt line 33 (.superSend "name" [] (pos line 28)) "," [string cls]
  let classes := [
    named "A" none 1 (string "A"),
    named "B" (some "A") 2 (longer "B" 2),
    named "C" (some "B") 3 (longer "C" 3)]
  withMain classes [] { stats := [.expr (sendAt 4 6 (send (var "C") "new" []) "name" [])] }

/--
```text
a := Array new: 3.
a at: 1 put: 'x'. a at: 2 put: $y. a at: 3 put: 2.5.
Transcript show: a.
Transcript show: 'size = ' , a size.
#(1 2 3) at: 2
```
-/
def collections : Program :=
  let put (i : Int32) (value : Expr) : Stat := .expr (send (var "a") "at:put:" [int i, value])
  withMain [] ["a"] { stats := [
    assignAt 1 0 "a" (sendAt 1 11 (var "Array") "new:" [int 3]),
    put 1 (string "x"),
    put 2 (char 'y'),
    put 3 (float 0x40200000),
    write (var "a"),
    write (sendAt 4 27 (string "size = ") "," [send (var "a") "size" []]),
    .expr (sendAt 5 9 (.array [int 1, int 2, int 3]) "at:" [int 2])] }

/--
`3 new`
-/
def classMismatch : Program :=
  withMain [] [] { stats := [.expr (sendAt 1 2 (int 3) "new" [])] }

/--
After the class `Counter`: `Counter incr`
-/
def instanceOnClass : Program :=
  withMain [counterClass] [] { stats := [.expr (sendAt 7 8 (var "Counter") "incr" [])] }

/--
```text
class Escaper [ escape [ ^[:x | ^x] ] ]
b := Escaper new escape.
b value: 3
```
-/
def deadReturn : Program :=
  let escape := block ["x"] [retAt 1 32 (var "x")] 1 35
  let escaper : ClassDef :=
    { name := "Escaper", methods := [method "escape" [] (body [retAt 1 25 escape] 1 37)] }
  withMain [escaper] ["b"] { stats := [
    assignAt 2 0 "b" (sendAt 2 17 (send (var "Escaper") "new" []) "escape" []),
    .expr (sendAt 3 2 (var "b") "value:" [int 3])] }

/-- All samples, in the order in which they are listed. -/
def all : List Sample := [
  ⟨"arith", "3 + 4", arith⟩,
  ⟨"counter", "a Counter incremented twice", counter⟩,
  ⟨"closure", "one closure invoked twice after its method returned", closure⟩,
  ⟨"nonlocal", "^ from inside an ifTrue: block", nonlocal⟩,
  ⟨"super", "super sends up a three-class chain", superChain⟩,
  ⟨"collections", "arrays, strings and characters", collections⟩,
  ⟨"class-mismatch", "class-side new sent to an integer (fails)", classMismatch⟩,
  ⟨"instance-on-class", "instance method sent to a class (fails)", instanceOnClass⟩,
  ⟨"dead-return", "^ through a closure whose method already returned (fails)", deadReturn⟩]

def find? (sampleName : String) : Option Sample := all.find? (·.name = sampleName)

end Sample

end Colloquy
