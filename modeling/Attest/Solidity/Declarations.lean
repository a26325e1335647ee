import Attest.Document.Access

/-! The immutable variables that a syntax tree declares. -/

namespace Attest.Solidity

/-- How many nodes a document has. -/
def nodes : Document → Nat
  | .list xs => nodesOfList xs + 1
  | .object ms => nodesOfMembers ms + 1
  | _ => 1
where
  nodesOfList : List Document → Nat
    | [] => 0
    | x :: xs => nodes x + nodesOfList xs
  nodesOfMembers : List (String × Document) → Nat
    | [] => 0
    | m :: ms => nodesOfMember m + nodesOfMembers ms
  nodesOfMember : String × Document → Nat
    | (_, d) => nodes d

/-- Names by the text of their node's id. -/
abbrev Names := List (String × Document)

/-- The id and name that a node declares, if it declares an immutable variable. -/
def declaration? (ms : Members) : Option (String × Document) :=
  let is (name word : String) : Bool :=
    (Members.get? ms name).any (Document.isText word)
  if is "nodeType" "VariableDeclaration" && is "mutability" "immutable" then
    some (((Members.get? ms "id").getD .null).plain, (Members.get? ms "name").getD .null)
  else none

/-- Adds what a node declares. -/
def note (names : Names) (ms : Members) : Names :=
  match declaration? ms with
  | some (id, name) => Members.set names id name
  | none => names

/-- The parts of a node, last first. -/
def parts : Document → List Document
  | .list xs => xs.reverse
  | .object ms => (ms.map (·.2)).reverse
  | _ => []

def totalNodes : List Document → Nat
  | [] => 0
  | d :: ds => nodes d + totalNodes ds

theorem totalNodes_append (xs ys : List Document) :
    totalNodes (xs ++ ys) = totalNodes xs + totalNodes ys := by
  induction xs with
  | nil => simp [totalNodes]
  | cons x xs ih => simp [totalNodes, ih, Nat.add_assoc]

theorem totalNodes_reverse (xs : List Document) : totalNodes xs.reverse = totalNodes xs := by
  induction xs with
  | nil => rfl
  | cons x xs ih => simp [totalNodes, totalNodes_append, ih, Nat.add_comm]

theorem nodesOfList_eq (xs : List Document) : nodes.nodesOfList xs = totalNodes xs := by
  induction xs with
  | nil => simp [nodes.nodesOfList, totalNodes]
  | cons x xs ih => simp [nodes.nodesOfList, ih, totalNodes]

theorem nodesOfMembers_eq (ms : Members) :
    nodes.nodesOfMembers ms = totalNodes (ms.map (·.2)) := by
  induction ms with
  | nil => simp [nodes.nodesOfMembers, totalNodes]
  | cons m ms ih =>
      obtain ⟨name, d⟩ := m
      simp [nodes.nodesOfMembers, nodes.nodesOfMember, ih, totalNodes]

/-- Every node but one is part of a part. -/
theorem totalNodes_parts_succ (d : Document) : totalNodes (parts d) + 1 = nodes d := by
  cases d with
  | list xs => simp [parts, totalNodes_reverse, nodes, nodesOfList_eq]
  | object ms => simp [parts, totalNodes_reverse, nodes, nodesOfMembers_eq]
  | _ => simp [parts, totalNodes, nodes]

theorem totalNodes_parts (d : Document) : totalNodes (parts d) < nodes d := by
  rw [← totalNodes_parts_succ]
  exact Nat.lt_succ_self _

/-- Works through nodes one by one, the parts of the first before the rest. -/
def declaredFrom (names : Names) : List Document → Names
  | [] => names
  | d :: rest =>
      declaredFrom (match d with | .object ms => note names ms | _ => names) (parts d ++ rest)
  termination_by ds => totalNodes ds
  decreasing_by
    have h := totalNodes_parts d
    rw [totalNodes_append]
    simp [totalNodes] at h ⊢
    omega

/-- The names of all immutable variables declared in a tree. -/
def declaredNames (ast : Document) : Names :=
  if ast.isGiven then declaredFrom [] [ast] else []

end Attest.Solidity
