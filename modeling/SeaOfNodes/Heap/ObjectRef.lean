namespace SeaOfNodes

structure ObjectRef where
  index : UInt32
deriving DecidableEq, Repr

def ObjectRef.text (object : ObjectRef) : String := s!"@{object.index}"

end SeaOfNodes
