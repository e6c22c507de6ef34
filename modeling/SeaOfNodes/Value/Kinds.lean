namespace SeaOfNodes

abbrev Kinds := BitVec 18

namespace Kinds

def none : Kinds := 0
def null : Kinds := 0x00001
def undefined : Kinds := 0x00002
def boolean : Kinds := 0x00004
def signedSmall : Kinds := 0x00008
def otherSigned32 : Kinds := 0x00010
def otherUnsigned32 : Kinds := 0x00020
def otherNumber : Kinds := 0x00040
def minusZero : Kinds := 0x00080
def nan : Kinds := 0x00100
def string : Kinds := 0x00200
def symbol : Kinds := 0x00400
def otherObject : Kinds := 0x00800
def array : Kinds := 0x01000
def function : Kinds := 0x02000
def proxy : Kinds := 0x04000
def hole : Kinds := 0x08000
def otherInternal : Kinds := 0x10000
def machine : Kinds := 0x20000

def signed32 : Kinds := signedSmall ||| otherSigned32
def integral32 : Kinds := signed32 ||| otherUnsigned32
def plainNumber : Kinds := integral32 ||| otherNumber
def number : Kinds := plainNumber ||| minusZero ||| nan
def oddball : Kinds := null ||| undefined ||| boolean
def receiver : Kinds := otherObject ||| array ||| function ||| proxy
def primitive : Kinds := number ||| oddball ||| string ||| symbol
def internal : Kinds := hole ||| otherInternal
def any : Kinds := primitive ||| receiver ||| internal ||| machine

def within (a b : Kinds) : Bool := a &&& b == a

def meets (a b : Kinds) : Bool := a &&& b != 0

def without (a b : Kinds) : Kinds := a &&& ~~~ b

def names : List String :=
  ["NULL", "UNDEFINED", "BOOLEAN", "SIGNED_SMALL", "OTHER_SIGNED32", "OTHER_UNSIGNED32", "OTHER_NUMBER",
   "MINUS_ZERO", "NAN", "STRING", "SYMBOL", "OTHER_OBJECT", "ARRAY", "FUNCTION", "PROXY", "HOLE",
   "OTHER_INTERNAL", "MACHINE"]

def text (kinds : Kinds) : String :=
  let set := (names.zipIdx.filter fun entry => kinds.getLsbD entry.2).map Prod.fst
  let joined := String.intercalate " | " set
  s!"TypeBits({joined})"

end Kinds

end SeaOfNodes
