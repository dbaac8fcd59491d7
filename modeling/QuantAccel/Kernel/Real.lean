import QuantAccel.Kernel.Fixed

/-!
# Real kernels

The same operators in binary64 arithmetic on unquantized parameters, to measure
how far the integer results drift.
-/

namespace QuantAccel.Kernel.Real

/-- The value after an optional activation. -/
def activated (activation : Option Activation) (x : Float) : Float :=
  match activation with
  | some f => f.real x
  | none => x

/-- One output element of a matrix product; the sum starts from the bias. -/
def matmulElement (left right : Array Float) (bias : Option (Array Float)) (d : MatmulDims)
    (activation : Option Activation) (row column : Nat) : Float :=
  let start := match bias with
    | some b => b.getD column 0
    | none => 0
  activated activation <| (List.range d.k).foldl
    (fun sum i => sum + left.getD (row * d.k + i) 0 * right.getD (d.rightIndex i column) 0) start

def matmul (left right : Array Float) (bias : Option (Array Float)) (d : MatmulDims)
    (activation : Option Activation) (size : Nat) : Array Float :=
  Array.ofFn fun i : Fin size =>
    if i / d.n < d.m then matmulElement left right bias d activation (i / d.n) (i % d.n) else 0

def add (left right : Array Float) (size : Nat) : Array Float :=
  Array.ofFn fun i : Fin size => left.getD i 0 + right.getD (i % right.size) 0

def normalize (input gain offset : Array Float) (activation : Option Activation) (size : Nat) :
    Array Float :=
  Array.ofFn fun i : Fin size =>
    let channel := i % gain.size
    activated activation (input.getD i 0 * gain.getD channel 0 + offset.getD channel 0)

def activate (input : Array Float) (activation : Activation) (size : Nat) : Array Float :=
  Array.ofFn fun i : Fin size => activation.real (input.getD i 0)

end QuantAccel.Kernel.Real
