import Colloquy.Compile.Basic
import Colloquy.Tree.Build

/-!
# The class library

The classes that every program starts with: the root class, and the classes of the values that the
machine knows itself.  `compile` puts them in front of a program.
-/

namespace Colloquy

namespace Library

open Colloquy.Tree

def object : ClassDef where
  name := rootClass
  methods := [
    primitive "asString" [] "Object_ASSTRING",
    primitive "className" [] "Object_CLASSNAME",
    primitive "==" ["other"] "Object_SAME",
    primitive "hash" [] "Object_HASH",
    method "printString" [] { stats := [.ret (send .self "asString" []) {}] },
    classSide (primitive "basicNew" [] "Object_Class_BASICNEW"),
    classSide (method "new" [] { stats := [.ret (send .self "basicNew" []) {}] }),
    classSide (primitive "error:" ["msg"] "Object_Class_ERROR")]

def boolean : ClassDef where
  name := "Boolean"
  methods := [
    primitive "ifTrue:ifFalse:" ["t", "f"] "Boolean_IFTRUE_IFFALSE",
    primitive "ifTrue:" ["t"] "Boolean_IFTRUE",
    primitive "not" [] "Boolean_NOT"]

def integer : ClassDef where
  name := "Integer"
  methods := [
    primitive "+" ["x"] "Integer_ADD",
    primitive "-" ["x"] "Integer_SUB",
    primitive "*" ["x"] "Integer_MULT",
    primitive "/" ["x"] "Integer_DIV",
    primitive "<" ["x"] "Integer_LT",
    primitive "<=" ["x"] "Integer_LE",
    primitive ">" ["x"] "Integer_GT",
    primitive ">=" ["x"] "Integer_GE",
    primitive "=" ["x"] "Integer_EQ",
    primitive "\\\\" ["x"] "Integer_MOD",
    primitive "asFloat" [] "Integer_ASFLOAT"]

def float : ClassDef where
  name := "Float"
  methods := [
    primitive "+" ["x"] "Float_ADD",
    primitive "-" ["x"] "Float_SUB",
    primitive "*" ["x"] "Float_MULT",
    primitive "/" ["x"] "Float_DIV",
    primitive "<" ["x"] "Float_LT",
    primitive "<=" ["x"] "Float_LE",
    primitive ">" ["x"] "Float_GT",
    primitive ">=" ["x"] "Float_GE",
    primitive "=" ["x"] "Float_EQ",
    primitive "asInteger" [] "Float_ASINTEGER"]

def character : ClassDef where
  name := "Character"
  methods := [
    primitive "asInteger" [] "Character_ASINTEGER",
    classSide (primitive "value:" ["code"] "Character_Class_NEW")]

def string : ClassDef where
  name := "String"
  methods := [
    classSide (primitive "new:" ["s"] "String_Class_NEW"),
    primitive "," ["s"] "String_CAT",
    primitive "=" ["s"] "String_EQ",
    primitive "asArray" [] "String_ASARRAY"]

def array : ClassDef where
  name := "Array"
  methods := [
    classSide (primitive "new:" ["size"] "Array_Class_NEW"),
    primitive "size" [] "Array_SIZE",
    primitive "at:" ["i"] "Array_AT",
    primitive "at:put:" ["i", "v"] "Array_AT_PUT"]

def block : ClassDef where
  name := "BlockDescriptor"
  methods := [
    primitive "value" [] "BlockDescriptor_VALUE",
    primitive "value:" ["a"] "BlockDescriptor_VALUE_1_ARG",
    primitive "value:value:" ["a", "b"] "BlockDescriptor_VALUE_2_ARGS"]

def transcript : ClassDef where
  name := "TranscriptStream"
  methods := [primitive "show:" ["x"] "TranscriptStream_SHOW"]

/-- The library, superclasses first. -/
def classes : List ClassDef :=
  [object, { name := "UndefinedObject" }, boolean, integer, float, character, string, array, block,
    transcript]

end Library

/-- Compiles a program on top of the class library. -/
def compile (options : CompilerOptions) (p : Program) : Log × Except CompileError CompiledProgram :=
  compileBare options { p with classes := Library.classes ++ p.classes }

end Colloquy
