namespace SeaOfNodes

abbrev Properties := BitVec 7

namespace Properties

def none : Properties := 0
def commutative : Properties := 0x01
def associative : Properties := 0x02
def idempotent : Properties := 0x04
def noRead : Properties := 0x08
def noWrite : Properties := 0x10
def noThrow : Properties := 0x20
def noDeopt : Properties := 0x40

def foldable : Properties := noRead ||| noWrite
def eliminatable : Properties := noDeopt ||| noWrite ||| noThrow
def pure : Properties := noRead ||| noWrite ||| noThrow ||| noDeopt ||| idempotent

def includes (properties wanted : Properties) : Bool := properties &&& wanted == wanted

end Properties

end SeaOfNodes
