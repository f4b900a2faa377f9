import Mathlib.Data.List.Sort
import TrustNode.Turbine.Erasure

namespace TrustNode.Turbine

abbrev ValidatorStake := Bytes32 × UInt64

structure TurbineNode where
  validator : Bytes32
  stake : UInt64
  depth : UInt8
  index : ℕ
  parent : Option ℕ
  children : List ℕ
deriving DecidableEq

structure Neighborhood where
  root : TurbineNode
  nodes : List TurbineNode
  depth : ℕ
deriving DecidableEq

namespace TurbineNode

def placed (v : ValidatorStake) (depth : UInt8) (index : ℕ) (parent : Option ℕ) : TurbineNode where
  validator := v.1
  stake := v.2
  depth := depth
  index := index
  parent := parent
  children := []

def entry (node : TurbineNode) : ValidatorStake := (node.validator, node.stake)

def adopt (newIdx : ℕ) (node : TurbineNode) : TurbineNode :=
  { node with children := node.children ++ [newIdx] }

end TurbineNode

namespace Neighborhood

def heavier (a b : ValidatorStake) : Prop := b.2 ≤ a.2

instance : DecidableRel heavier := fun a b => inferInstanceAs (Decidable (b.2 ≤ a.2))

def byStake (validators : List ValidatorStake) : List ValidatorStake :=
  validators.insertionSort heavier

def attach (validators : List ValidatorStake) (parentIdx : ℕ) (childDepth : UInt8)
    (nodes : List TurbineNode) (childIdx : ℕ) : Except Panic (List TurbineNode) :=
  match validators[childIdx]? with
  | none => .error .indexOutOfRange
  | some v =>
    .ok ((nodes ++ [TurbineNode.placed v childDepth nodes.length (some parentIdx)]).modify parentIdx
      (TurbineNode.adopt nodes.length))

def distribute (children remaining : List ℕ) : List (ℕ × List ℕ) :=
  if remaining = [] ∨ children = [] then []
  else
    let perChild := (remaining.length + children.length - 1) / children.length
    children.zipIdx.filterMap fun (childIdx, i) =>
      let start := i * perChild
      let stop := min (start + perChild) remaining.length
      if start < remaining.length then some (childIdx, (remaining.take stop).drop start) else none

structure Build where
  nodes : List TurbineNode
  queue : List (ℕ × List ℕ)
  depth : ℕ

def visit (validators : List ValidatorStake) (maxDepth : ℕ) (s : Build) (parentIdx : ℕ)
    (remaining : List ℕ) : Except Panic Build :=
  if remaining = [] then .ok s
  else
    match s.nodes[parentIdx]? with
    | none => .error .indexOutOfRange
    | some parent =>
      if maxDepth ≤ parent.depth.toNat then .ok s
      else
        let childDepth := parent.depth + 1
        let children := remaining.take 3
        match children.foldlM (attach validators parentIdx childDepth) s.nodes with
        | .error e => .error e
        | .ok nodes =>
          .ok
            { nodes := nodes
              queue := s.queue ++ distribute children (remaining.drop 3)
              depth := max s.depth childDepth.toNat }

def loop (validators : List ValidatorStake) (maxDepth : ℕ) : ℕ → Build → Except Panic Build
  | 0, s => .ok s
  | fuel + 1, s =>
    match s.queue with
    | [] => .ok s
    | (parentIdx, remaining) :: rest =>
      match visit validators maxDepth { s with queue := rest } parentIdx remaining with
      | .error e => .error e
      | .ok s' => loop validators maxDepth fuel s'

def planted (first : ValidatorStake) (total : ℕ) : Build where
  nodes := [.placed first 0 0 none]
  queue := [(0, List.range' 1 (total - 1))]
  depth := 0

def empty : Neighborhood where
  root := .placed (Bytes32.splat 0, 0) 0 0 none
  nodes := []
  depth := 0

def buildTree (validators : List ValidatorStake) (maxDepth : ℕ) : Except Panic Neighborhood :=
  let sorted := byStake validators
  match sorted with
  | [] => .ok empty
  | first :: _ =>
    match loop sorted maxDepth sorted.length (planted first sorted.length) with
    | .error e => .error e
    | .ok s =>
      match s.nodes with
      | [] => .error .indexOutOfRange
      | root :: _ => .ok { root := root, nodes := s.nodes, depth := s.depth }

def climb (nodes : List TurbineNode) : ℕ → ℕ → Option (List TurbineNode)
  | 0, _ => none
  | fuel + 1, idx =>
    match nodes[idx]? with
    | none => none
    | some node =>
      match node.parent with
      | none => some [node]
      | some parentIdx => (climb nodes fuel parentIdx).map (node :: ·)

def pathTo (tree : Neighborhood) (validator : Bytes32) : Option (List TurbineNode) :=
  match tree.nodes.findIdx? fun n => n.validator = validator with
  | none => none
  | some targetIdx => (climb tree.nodes tree.nodes.length targetIdx).map List.reverse

end Neighborhood

end TrustNode.Turbine
