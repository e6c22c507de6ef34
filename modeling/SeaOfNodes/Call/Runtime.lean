namespace SeaOfNodes

inductive RuntimeFunction where
  | abort | stackGuard | newObject | newArray | createIterResultObject | createKeyValueArray
  | createArrayLiteral | createObjectLiteral | createRegExpLiteral
  | createEmptyArrayLiteral | createEmptyObjectLiteral
  | newFunctionContext | pushWithContext | pushCatchContext | pushBlockContext
  | createGeneratorObject
deriving DecidableEq, Repr

namespace RuntimeFunction

def all : List RuntimeFunction :=
  [abort, stackGuard, newObject, newArray, createIterResultObject, createKeyValueArray,
   createArrayLiteral, createObjectLiteral, createRegExpLiteral,
   createEmptyArrayLiteral, createEmptyObjectLiteral,
   newFunctionContext, pushWithContext, pushCatchContext, pushBlockContext, createGeneratorObject]

def index (function : RuntimeFunction) : Nat := function.ctorIdx

def name : RuntimeFunction → String
  | abort => "Abort"
  | stackGuard => "StackGuard"
  | newObject => "NewObject"
  | newArray => "NewArray"
  | createIterResultObject => "CreateIterResultObject"
  | createKeyValueArray => "CreateKeyValueArray"
  | createArrayLiteral => "CreateArrayLiteral"
  | createObjectLiteral => "CreateObjectLiteral"
  | createRegExpLiteral => "CreateRegExpLiteral"
  | createEmptyArrayLiteral => "CreateEmptyArrayLiteral"
  | createEmptyObjectLiteral => "CreateEmptyObjectLiteral"
  | newFunctionContext => "NewFunctionContext"
  | pushWithContext => "PushWithContext"
  | pushCatchContext => "PushCatchContext"
  | pushBlockContext => "PushBlockContext"
  | createGeneratorObject => "CreateJSGeneratorObject"

def arity? : RuntimeFunction → Option UInt32
  | newArray => none
  | stackGuard | createEmptyObjectLiteral => some 0
  | abort => some 1
  | newObject | createIterResultObject | createKeyValueArray | createEmptyArrayLiteral
  | newFunctionContext | pushBlockContext | createGeneratorObject => some 2
  | pushWithContext => some 3
  | createArrayLiteral | createObjectLiteral | createRegExpLiteral | pushCatchContext => some 4

def resultSize (_ : RuntimeFunction) : UInt8 := 1

def text (function : RuntimeFunction) : String := s!"Runtime::{function.name}"

end RuntimeFunction

end SeaOfNodes
