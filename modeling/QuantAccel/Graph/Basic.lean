import QuantAccel.Error

/-!
# Graphs

A graph is a list of tensors and a list of operators on them, each addressed by
position, with a table of names for either. Questions about tensors by role, and
about which operators write and read a tensor, go through the lists in the order
of declaration.
-/

namespace QuantAccel

structure Graph where
  tensors : Array Tensor := #[]
  operators : Array Operator := #[]
  tensorNames : List (String × TensorId) := []
  operatorNames : List (String × OperatorId) := []
  deriving Repr, Inhabited

/-- The tensor at an address. An address stays once it is given. -/
def Tensor.assignAddress (t : Tensor) (address : Nat) : Except GraphFault Tensor :=
  match t.address with
  | none => .ok { t with address := some address }
  | some existing =>
    if existing = address then .ok t else .error (.addressReassigned t.name existing address)

namespace Graph

variable (g : Graph)

def tensor (id : TensorId) : Tensor := g.tensors.getD id default

def operator (id : OperatorId) : Operator := g.operators.getD id default

/-- The graph with one tensor changed. -/
def modifyTensor (id : TensorId) (f : Tensor → Tensor) : Graph :=
  { g with tensors := g.tensors.modify id f }

/-- The graph with every tensor changed. -/
def mapTensors (f : Tensor → Tensor) : Graph :=
  { g with tensors := g.tensors.map f }

/-- The graph with one operator changed. -/
def modifyOperator (id : OperatorId) (f : Operator → Operator) : Graph :=
  { g with operators := g.operators.modify id f }

def tensorNamed? (name : String) : Option TensorId := g.tensorNames.lookup name

def operatorNamed? (name : String) : Option OperatorId := g.operatorNames.lookup name

/-! ## Tensors by role -/

/-- Tensors of some kind, in the order of declaration. -/
def idsWhere (p : TensorKind → Bool) : List TensorId :=
  (g.tensors.toList.filter fun t => p t.kind).map (·.id)

def placeholders : List TensorId := g.idsWhere (·.isPlaceholder)

def trained : List TensorId := g.idsWhere (·.isTrained)

def fixed : List TensorId := g.idsWhere (·.isFixed)

def outputs : List TensorId := g.idsWhere (·.isOutput)

def intermediates : List TensorId := g.idsWhere (·.isIntermediate)

/-! ## Producers and consumers -/

/-- The operator that writes a tensor. -/
def producer? (id : TensorId) : Option OperatorId :=
  (g.operators.toList.find? fun op => op.output == id).map (·.id)

/-- The operators that read a tensor. -/
def consumers (id : TensorId) : List OperatorId :=
  (g.operators.toList.filter fun op => op.inputs.contains id).map (·.id)

end Graph

/-! ## Growing a graph -/

/-- A step in the construction of a graph. A step that fails keeps what it did
before. -/
abbrev Building (α : Type) := ExceptT GraphFault (StateM Graph) α

namespace Graph

/-- Refuses a tensor whose name is in use, whose shape is empty, or whose values
do not fill it. -/
def checkTensor (g : Graph) (name : String) (shape : Shape) (kind : TensorKind) :
    Except GraphFault Unit := do
  if (g.tensorNamed? name).isSome then throw (.duplicateTensor name)
  if shape.isEmpty || shape.contains 0 then throw (.invalidShape name shape)
  if let some values := kind.values? then
    if values.size ≠ shape.volume then throw (.valueCount name values.size shape)

/-- One more tensor; gives its id. -/
def addTensor (name : String) (shape : Shape) (element : ElementType) (kind : TensorKind) :
    Building TensorId := do
  let g ← get
  g.checkTensor name shape kind
  let id := g.tensors.size
  set { g with
    tensors := g.tensors.push { id, name, shape, element, kind }
    tensorNames := (name, id) :: g.tensorNames }
  return id

/-- One more operator. -/
def addOperator (name : String) (operation : Operation) : Building Unit := do
  let g ← get
  if (g.operatorNamed? name).isSome then throw (.duplicateOperator name)
  let id := g.operators.size
  set { g with
    operators := g.operators.push { id, name, operation }
    operatorNames := (name, id) :: g.operatorNames }

end Graph

end QuantAccel
