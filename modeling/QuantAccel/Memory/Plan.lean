import QuantAccel.Event
import QuantAccel.Graph.Basic
import QuantAccel.Memory.Allocation
import QuantAccel.Memory.Packing

/-!
# Memory plan

Memory is laid out in four regions, one after the other: activations (inputs,
then outputs), parameters (trained, then constant), reference results (one slot
for each output), and scratch (intermediates, then one chunk for the handshake
word). Planning assigns every tensor its address. An address that was assigned
stays assigned when a later region does not fit.

The sizes that are placed are exact. A plan is one of tensors whose padded
elements have fewer than `2 ^ 64` bits, for which `Tensor.memorySize?` finds the
same size; the ends of the regions are words then, since an entity that ends
past the last word is refused.
-/

namespace QuantAccel

/-- A chunk-aligned part of memory. -/
structure Region where
  kind : RegionKind
  base : Nat
  size : Nat
  chunkSize : Nat
  deriving Repr, DecidableEq

namespace Region

/-- First byte after the region. -/
def stop (r : Region) : Nat := r.base + r.size

def contains (r : Region) (address : Nat) : Bool :=
  r.base ≤ address && address < r.stop

end Region

/-- Where everything is in memory. -/
structure MemoryMap where
  chunkSize : Nat
  /-- Regions in the order of allocation. -/
  regions : List Region
  /-- Reference slot of each output. -/
  reference : List (TensorId × Nat)
  /-- Offset of each parameter in the parameter region. -/
  parameterOffsets : List (TensorId × Nat)
  /-- Address of the word that counts completed operators. -/
  handshake : Nat
  /-- First byte after the last region. -/
  size : Nat
  deriving Repr, DecidableEq

namespace MemoryMap

def region (map : MemoryMap) (kind : RegionKind) : Except GraphFault Region :=
  match map.regions.find? fun r => r.kind == kind with
  | some r => .ok r
  | none => .error (.noRegion kind)

/-- The map without the regions of some kinds. -/
def without (map : MemoryMap) (kinds : List RegionKind) : MemoryMap :=
  { map with regions := map.regions.filter fun r => !kinds.contains r.kind }

def referenceAddress? (map : MemoryMap) (output : TensorId) : Option Nat :=
  map.reference.lookup output

def parameterOffset? (map : MemoryMap) (id : TensorId) : Option Nat :=
  map.parameterOffsets.lookup id

/-- What planning reports. -/
def events (map : MemoryMap) : List Event :=
  (map.regions.map fun r => .regionPlaced r.kind r.base r.size) ++
    [.imagePlanned map.size map.chunkSize]

end MemoryMap

/-- Addresses of the entities of a region that begins at `base`, and the
region. -/
def placeRegion (chunkSize bound : Nat) (kind : RegionKind) (items : List (String × Nat))
    (base : Nat) : Except CompileError (List Nat × Region) := do
  let (addresses, stop) ← allocate items base chunkSize bound
  return (addresses, { kind, base, size := stop - base, chunkSize })

namespace Graph

/-- A computation that assigns addresses as it goes and keeps them when it
fails. -/
abbrev Placing (α : Type) := ExceptT CompileError (StateM Graph) α

/-- Names and sizes in memory. -/
def sized (g : Graph) (ids : List TensorId) : List (String × Nat) :=
  ids.map fun id => ((g.tensor id).name, (g.tensor id).memorySize)

/-- Assigns addresses one after the other. -/
def assignAddresses (slots : List (TensorId × Nat)) : Placing Unit :=
  slots.forM fun (id, address) => do
    let g ← get
    match (g.tensor id).assignAddress address with
    | .ok t => set (g.modifyTensor id fun _ => t)
    | .error fault => throw (.graph fault)

/-- Places tensors in a region and assigns their addresses. -/
def placeTensors (chunkSize bound : Nat) (kind : RegionKind) (ids : List TensorId) (base : Nat) :
    Placing (List Nat × Region) := do
  let (addresses, region) ← placeRegion chunkSize bound kind ((← get).sized ids) base
  assignAddresses (ids.zip addresses)
  return (addresses, region)

/-- The plan for all four regions. -/
def placeAll (chunkSize bound : Nat) : Placing MemoryMap := do
  let g ← get
  let (_, activations) ←
    placeTensors chunkSize bound .activations (g.placeholders ++ g.outputs) 0
  let parameterIds := g.trained ++ g.fixed
  let (parameterAddresses, parameters) ←
    placeTensors chunkSize bound .parameters parameterIds activations.stop
  let slots := ((← get).sized g.outputs).map fun (name, size) => (name ++ ".reference", size)
  let (referenceAddresses, reference) ←
    placeRegion chunkSize bound .reference slots parameters.stop
  let scratchItems := (← get).sized g.intermediates ++ [("handshake", chunkSize)]
  let (scratchAddresses, scratch) ←
    placeRegion chunkSize bound .scratch scratchItems reference.stop
  assignAddresses (g.intermediates.zip scratchAddresses)
  return {
    chunkSize
    regions := [activations, parameters, reference, scratch]
    reference := g.outputs.zip referenceAddresses
    parameterOffsets := parameterIds.zip (parameterAddresses.map (· - parameters.base))
    handshake := scratchAddresses.getLastD 0
    size := scratch.stop }

/-- The memory plan of a graph, and the graph with the addresses that were
assigned. -/
def planMemory (g : Graph) (chunkSize bound : Nat) : Except CompileError MemoryMap × Graph :=
  (placeAll chunkSize bound).run.run g

/-! ## Parameters in memory -/

/-- The packed bytes of a parameter. -/
def packedParameter (t : Tensor) : Except GraphFault Bytes :=
  match t.ints, t.layout with
  | some values, some layout => .ok (pack values t.shape layout.shape t.element.width)
  | _, _ => .error (.notPackable t.name)

/-- The bytes of the parameter region: every parameter at its offset, zero
between them. -/
def parameterBlob (g : Graph) (map : MemoryMap) : Except GraphFault Bytes := do
  let region ← map.region .parameters
  map.parameterOffsets.foldlM
    (fun blob (id, offset) => do
      let bytes ← packedParameter (g.tensor id)
      return blob.splice offset bytes.toList)
    (Array.replicate region.size 0)

/-- Address of every placed tensor, by name. -/
def addressTable (g : Graph) : List (String × Nat) :=
  g.tensors.toList.filterMap fun t => t.address.map fun address => (t.name, address)

end Graph

end QuantAccel
