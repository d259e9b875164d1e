/-!
# Primitives

The operations that the machine carries out itself.  A method names one by its tag, and the tag
fixes the number of arguments.
-/

namespace Colloquy

inductive Primitive where
  | objectAsString | objectClassName | objectSame | objectHash | objectBasicNew | objectError
  | integerAdd | integerSub | integerMul | integerDiv | integerLt | integerLe | integerGt
  | integerGe | integerEq | integerMod | integerAsFloat
  | floatAdd | floatSub | floatMul | floatDiv | floatLt | floatLe | floatGt | floatGe | floatEq
  | floatAsInteger
  | stringNew | stringCat | stringEq | stringAsArray
  | arrayNew | arraySize | arrayAt | arrayAtPut
  | booleanIfTrueIfFalse | booleanIfTrue | booleanNot
  | characterAsInteger | characterNew
  | blockValue | blockValue1 | blockValue2
  | transcriptShow
deriving DecidableEq, Inhabited

namespace Primitive

/-- All primitives, in the order of their numbers. -/
def all : List Primitive :=
  [objectAsString, objectClassName, objectSame, objectHash, objectBasicNew, objectError,
    integerAdd, integerSub, integerMul, integerDiv, integerLt, integerLe, integerGt, integerGe,
    integerEq, integerMod, integerAsFloat,
    floatAdd, floatSub, floatMul, floatDiv, floatLt, floatLe, floatGt, floatGe, floatEq,
    floatAsInteger,
    stringNew, stringCat, stringEq, stringAsArray,
    arrayNew, arraySize, arrayAt, arrayAtPut,
    booleanIfTrueIfFalse, booleanIfTrue, booleanNot,
    characterAsInteger, characterNew,
    blockValue, blockValue1, blockValue2,
    transcriptShow]

/-- The name by which a method asks for a primitive. -/
def tag : Primitive → String
  | objectAsString => "Object_ASSTRING"
  | objectClassName => "Object_CLASSNAME"
  | objectSame => "Object_SAME"
  | objectHash => "Object_HASH"
  | objectBasicNew => "Object_Class_BASICNEW"
  | objectError => "Object_Class_ERROR"
  | integerAdd => "Integer_ADD"
  | integerSub => "Integer_SUB"
  | integerMul => "Integer_MULT"
  | integerDiv => "Integer_DIV"
  | integerLt => "Integer_LT"
  | integerLe => "Integer_LE"
  | integerGt => "Integer_GT"
  | integerGe => "Integer_GE"
  | integerEq => "Integer_EQ"
  | integerMod => "Integer_MOD"
  | integerAsFloat => "Integer_ASFLOAT"
  | floatAdd => "Float_ADD"
  | floatSub => "Float_SUB"
  | floatMul => "Float_MULT"
  | floatDiv => "Float_DIV"
  | floatLt => "Float_LT"
  | floatLe => "Float_LE"
  | floatGt => "Float_GT"
  | floatGe => "Float_GE"
  | floatEq => "Float_EQ"
  | floatAsInteger => "Float_ASINTEGER"
  | stringNew => "String_Class_NEW"
  | stringCat => "String_CAT"
  | stringEq => "String_EQ"
  | stringAsArray => "String_ASARRAY"
  | arrayNew => "Array_Class_NEW"
  | arraySize => "Array_SIZE"
  | arrayAt => "Array_AT"
  | arrayAtPut => "Array_AT_PUT"
  | booleanIfTrueIfFalse => "Boolean_IFTRUE_IFFALSE"
  | booleanIfTrue => "Boolean_IFTRUE"
  | booleanNot => "Boolean_NOT"
  | characterAsInteger => "Character_ASINTEGER"
  | characterNew => "Character_Class_NEW"
  | blockValue => "BlockDescriptor_VALUE"
  | blockValue1 => "BlockDescriptor_VALUE_1_ARG"
  | blockValue2 => "BlockDescriptor_VALUE_2_ARGS"
  | transcriptShow => "TranscriptStream_SHOW"

/-- The full name. -/
def name : Primitive → String
  | objectAsString => "ObjectAsString"
  | objectClassName => "ObjectClassName"
  | objectSame => "ObjectSame"
  | objectHash => "ObjectHash"
  | objectBasicNew => "ObjectBasicNew"
  | objectError => "ObjectError"
  | integerAdd => "IntegerAdd"
  | integerSub => "IntegerSub"
  | integerMul => "IntegerMul"
  | integerDiv => "IntegerDiv"
  | integerLt => "IntegerLt"
  | integerLe => "IntegerLe"
  | integerGt => "IntegerGt"
  | integerGe => "IntegerGe"
  | integerEq => "IntegerEq"
  | integerMod => "IntegerMod"
  | integerAsFloat => "IntegerAsFloat"
  | floatAdd => "FloatAdd"
  | floatSub => "FloatSub"
  | floatMul => "FloatMul"
  | floatDiv => "FloatDiv"
  | floatLt => "FloatLt"
  | floatLe => "FloatLe"
  | floatGt => "FloatGt"
  | floatGe => "FloatGe"
  | floatEq => "FloatEq"
  | floatAsInteger => "FloatAsInteger"
  | stringNew => "StringNew"
  | stringCat => "StringCat"
  | stringEq => "StringEq"
  | stringAsArray => "StringAsArray"
  | arrayNew => "ArrayNew"
  | arraySize => "ArraySize"
  | arrayAt => "ArrayAt"
  | arrayAtPut => "ArrayAtPut"
  | booleanIfTrueIfFalse => "BooleanIfTrueIfFalse"
  | booleanIfTrue => "BooleanIfTrue"
  | booleanNot => "BooleanNot"
  | characterAsInteger => "CharacterAsInteger"
  | characterNew => "CharacterNew"
  | blockValue => "BlockValue"
  | blockValue1 => "BlockValue1"
  | blockValue2 => "BlockValue2"
  | transcriptShow => "TranscriptShow"

/-- The number of arguments. -/
def arity : Primitive → Nat
  | objectAsString | objectClassName | objectHash | objectBasicNew | integerAsFloat
  | floatAsInteger | stringAsArray | arraySize | booleanNot | characterAsInteger
  | blockValue => 0
  | objectSame | objectError | integerAdd | integerSub | integerMul | integerDiv | integerLt
  | integerLe | integerGt | integerGe | integerEq | integerMod | floatAdd | floatSub | floatMul
  | floatDiv | floatLt | floatLe | floatGt | floatGe | floatEq | stringNew | stringCat | stringEq
  | arrayNew | arrayAt | booleanIfTrue | characterNew | blockValue1 | transcriptShow => 1
  | arrayAtPut | booleanIfTrueIfFalse | blockValue2 => 2

/-- The primitive with a given tag. -/
def ofTag? (t : String) : Option Primitive := all.find? (·.tag = t)

/-- The place in the list of all primitives. -/
def number (p : Primitive) : Nat := all.idxOf p

end Primitive

end Colloquy
