import Attest.Proofs.ArtifactCollisions
import Attest.Proofs.ImmutableNames
import Attest.Proofs.JsonRoundTrip
import Mathlib.Logic.Function.Iterate

/-! # Walks through a syntax tree

The names that a tree declares are found with a stack of the nodes that are left. The walk ends after as
many rounds as there are nodes. Where no two nodes declare the same id, it finds what is declared, as a
walk by recursion does, and in whatever order objects hold their members. -/

namespace Attest

namespace Members

variable {ms : Members} {k : String} {d : Document}

theorem mem_of_get? (h : get? ms k = some d) : (k, d) ∈ ms := by
  induction ms with
  | nil => cases h
  | cons m ms ih =>
    rw [get?_cons] at h
    split at h
    · rename_i hname
      cases h
      simp [← hname]
    · exact List.mem_cons_of_mem m (ih h)

theorem get?_eq_none_iff : get? ms k = none ↔ k ∉ ms.names := by
  induction ms with
  | nil => simp [get?, names]
  | cons m ms ih =>
    rw [get?_cons, names, List.map_cons, List.mem_cons, not_or, ← names, ← ih]
    by_cases hname : m.1 = k
    · simp [hname]
    · simp [hname, Ne.symm hname]

theorem union_append (ms ns ks : Members) : union ms (ns ++ ks) = union (union ms ns) ks := by
  rw [union, List.foldl_append, union, union]

end Members

namespace Document

/-- Objects that differ in order only hold the same under a name, or neither holds anything. -/
theorem reordered_member {ms ns : Members} (names : ms.names.Perm ns.names)
    (values : ∀ m ∈ ms, ∀ n ∈ ns, m.1 = n.1 → Reordered m.2 n.2) (k : String) :
    Reordered ((Members.get? ms k).getD .null) ((Members.get? ns k).getD .null) := by
  cases hms : Members.get? ms k with
  | none =>
    have hns : Members.get? ns k = none := by
      rwa [Members.get?_eq_none_iff, ← names.mem_iff, ← Members.get?_eq_none_iff]
    rw [hns]
    exact .same _
  | some d =>
    cases hns : Members.get? ns k with
    | none =>
      rw [Members.get?_eq_none_iff, ← names.mem_iff, ← Members.get?_eq_none_iff, hms] at hns
      cases hns
    | some e => exact values (k, d) (Members.mem_of_get? hms) (k, e) (Members.mem_of_get? hns) rfl

theorem Reordered.names_perm {ms ns : Members} (h : Reordered (.object ms) (.object ns)) :
    ms.names.Perm ns.names := by
  cases h with
  | same => exact .refl _
  | object names _ => exact names

theorem Reordered.symm {d d' : Document} (h : Reordered d d') : Reordered d' d := by
  induction h with
  | same d => exact .same d
  | list length _ ih => exact .list length.symm fun i x y hx hy => ih i y x hy hx
  | object names _ ih => exact .object names.symm fun m hm n hn hname => ih n hn m hm hname.symm

end Document

namespace Solidity

open Document (Reordered)

/-! ### By recursion -/

mutual
/-- What the nodes of a tree declare, each before its parts. -/
def declarations : Document → List (String × Document)
  | .list xs => itemDeclarations xs
  | .object ms => (declaration? ms).toList ++ memberDeclarations ms
  | _ => []

def itemDeclarations : List Document → List (String × Document)
  | [] => []
  | x :: xs => declarations x ++ itemDeclarations xs

def memberDeclarations : List (String × Document) → List (String × Document)
  | [] => []
  | (_, d) :: ms => declarations d ++ memberDeclarations ms
end

mutual
/-- The names that are known after a tree was walked through by recursion, each node before its
parts. -/
def walked (names : Names) : Document → Names
  | .list xs => walkedItems names xs
  | .object ms => walkedMembers (note names ms) ms
  | _ => names

def walkedItems (names : Names) : List Document → Names
  | [] => names
  | x :: xs => walkedItems (walked names x) xs

def walkedMembers (names : Names) : List (String × Document) → Names
  | [] => names
  | (_, d) :: ms => walkedMembers (walked names d) ms
end

variable {tree tree' d name name' : Document} {id : String}

theorem mem_declarations_iff : (id, name) ∈ declarations d ↔ Declares d id name := by
  induction d using declarations.induct
    (motive_2 := fun ms =>
      (id, name) ∈ memberDeclarations ms ↔ ∃ inner ∈ ms.map (·.2), Declares inner id name)
    (motive_3 := fun xs => (id, name) ∈ itemDeclarations xs ↔ ∃ x ∈ xs, Declares x id name) with
  | case1 xs ih => rw [declarations, ih, declares_list]
  | case2 ms ih =>
    rw [declarations, List.mem_append, ih, declares_object, Option.mem_toList]
  | case3 d hlist hobject =>
    rw [declarations.eq_3 d hlist hobject]
    refine iff_of_false List.not_mem_nil (not_declares_of_not_nested ?_)
    cases d with
    | list xs => exact absurd rfl (hlist xs)
    | object ms => exact absurd rfl (hobject ms)
    | _ => rfl
  | case4 => simp [itemDeclarations]
  | case5 x xs ihx ih => simp [itemDeclarations, ihx, ih]
  | case6 => simp [memberDeclarations]
  | case7 k d ms ihd ih => simp [memberDeclarations, ihd, ih]

theorem note_eq_union (names : Names) (ms : Members) :
    note names ms = Members.union names (declaration? ms).toList := by
  rw [note]
  cases declaration? ms <;> rfl

/-- A walk by recursion puts in what is declared, one declaration after the other. -/
theorem walked_eq_union (names : Names) (d : Document) :
    walked names d = Members.union names (declarations d) := by
  revert names
  induction d using declarations.induct
    (motive_2 := fun ms =>
      ∀ names, walkedMembers names ms = Members.union names (memberDeclarations ms))
    (motive_3 := fun xs =>
      ∀ names, walkedItems names xs = Members.union names (itemDeclarations xs)) with
  | case1 xs ih =>
    intro names
    rw [walked, declarations, ih]
  | case2 ms ih =>
    intro names
    rw [walked, declarations, ih, note_eq_union, Members.union_append]
  | case3 d hlist hobject =>
    intro names
    rw [walked.eq_3 names d hlist hobject, declarations.eq_3 d hlist hobject]
    rfl
  | case4 names => rfl
  | case5 x xs ihx ih names =>
    rw [walkedItems, itemDeclarations, ih, ihx, Members.union_append]
  | case6 names => rfl
  | case7 k d ms ihd ih names =>
    rw [walkedMembers, memberDeclarations, ih, ihd, Members.union_append]

theorem walked_of_nodup (h : (Members.names (declarations d)).Nodup) :
    walked [] d = declarations d := by
  rw [walked_eq_union]
  exact Members.ofPairs_of_nodup h

/-- Where no two nodes declare the same id, it has one name only. -/
theorem Declares.unique (hname : Declares tree id name) (hname' : Declares tree id name')
    (h : (Members.names (declarations tree)).Nodup) : name = name' := by
  rw [← mem_declarations_iff, ← Members.get?_eq_some_iff h] at hname hname'
  exact Option.some.inj (hname.symm.trans hname')

/-! ### With a stack -/

/-- A walk that has come somewhere: the names that are known, and the nodes that are left. -/
@[ext]
structure Walk where
  known : Names
  left : List Document

namespace Walk

/-- Nothing is left of a tree that does not count as given. -/
def start (tree : Document) : Walk := ⟨[], if tree.isGiven then [tree] else []⟩

/-- One round: the first node is done, and its parts come before the rest. -/
def round : Walk → Walk
  | ⟨known, []⟩ => ⟨known, []⟩
  | ⟨known, d :: ds⟩ => ⟨noted known d, parts d ++ ds⟩

/-- Every round does away with one node of all that are left, at any depth. -/
theorem totalNodes_round (w : Walk) : totalNodes w.round.left = totalNodes w.left - 1 := by
  obtain ⟨known, _ | ⟨d, ds⟩⟩ := w
  · rfl
  · have hparts := totalNodes_parts_succ d
    simp only [round, totalNodes_append, totalNodes]
    omega

theorem totalNodes_rounds (w : Walk) (k : Nat) :
    totalNodes (round^[k] w).left = totalNodes w.left - k := by
  induction k with
  | zero => rfl
  | succ k ih => rw [Function.iterate_succ_apply', totalNodes_round, ih, Nat.sub_sub]

theorem left_ne_nil {w : Walk} {k : Nat} (h : k < totalNodes w.left) : (round^[k] w).left ≠ [] := by
  intro hleft
  have htotal := totalNodes_rounds w k
  rw [hleft, totalNodes] at htotal
  omega

/-- What a round leaves to do has the same result as what was left before it. -/
theorem declaredFrom_round (w : Walk) :
    declaredFrom w.round.known w.round.left = declaredFrom w.known w.left := by
  obtain ⟨known, _ | ⟨d, ds⟩⟩ := w
  · rfl
  · rw [declaredFrom_cons]
    rfl

theorem declaredFrom_rounds (w : Walk) (k : Nat) :
    declaredFrom (round^[k] w).known (round^[k] w).left = declaredFrom w.known w.left := by
  induction k with
  | zero => rfl
  | succ k ih => rw [Function.iterate_succ_apply', declaredFrom_round, ih]

theorem eq_nil_of_totalNodes {ds : List Document} (h : totalNodes ds = 0) : ds = [] := by
  cases ds with
  | nil => rfl
  | cons d ds =>
    have hparts := totalNodes_parts_succ d
    rw [totalNodes] at h
    omega

/-- After as many rounds as there are nodes, nothing is left. -/
theorem rounds_eq (w : Walk) :
    round^[totalNodes w.left] w = ⟨declaredFrom w.known w.left, []⟩ := by
  have hleft : (round^[totalNodes w.left] w).left = [] :=
    eq_nil_of_totalNodes (by rw [totalNodes_rounds, Nat.sub_self])
  refine Walk.ext ?_ hleft
  rw [← declaredFrom_rounds w (totalNodes w.left), hleft, declaredFrom]

theorem declaredFrom_start (tree : Document) :
    declaredFrom (start tree).known (start tree).left = declaredNames tree := by
  rw [declaredNames, start]
  split
  · rfl
  · rw [declaredFrom]

end Walk

/-! ### What is found -/

theorem nodup_noted {names : Names} (h : (Members.names names).Nodup) (d : Document) :
    (Members.names (noted names d)).Nodup := by
  cases d with
  | object ms =>
    rw [noted, note]
    cases declaration? ms with
    | none => exact h
    | some p => exact Members.nodup_set h p.1 p.2
  | _ => exact h

theorem nodup_declaredFrom {names : Names} {ds : List Document} (h : (Members.names names).Nodup) :
    (Members.names (declaredFrom names ds)).Nodup := by
  induction names, ds using declaredFrom.induct with
  | case1 names => rwa [declaredFrom]
  | case2 names d ds ih =>
    rw [declaredFrom_cons]
    have hnoted := nodup_noted h d
    cases d <;> exact ih hnoted

theorem nodup_declaredNames (tree : Document) : (Members.names (declaredNames tree)).Nodup := by
  rw [← Walk.declaredFrom_start]
  exact nodup_declaredFrom List.nodup_nil

theorem mem_names_declaredNames : id ∈ Members.names (declaredNames tree) ↔
    ∃ name, Declares tree id name := by
  rw [Members.mem_names_iff]
  simp only [← Members.get?_eq_some_iff (nodup_declaredNames tree)]
  constructor
  · intro ⟨name, h⟩
    exact ⟨name, declares_of_get? h⟩
  · intro ⟨name, h⟩
    exact exists_get?_of_declares h

theorem declares_of_mem (h : (id, name) ∈ declaredNames tree) : Declares tree id name :=
  declares_of_get? ((Members.get?_eq_some_iff (nodup_declaredNames tree)).mpr h)

theorem mem_declaredNames_iff (h : (Members.names (declarations tree)).Nodup) :
    (id, name) ∈ declaredNames tree ↔ Declares tree id name := by
  refine ⟨declares_of_mem, fun hname => ?_⟩
  obtain ⟨found, hfound⟩ := Members.mem_names_iff.mp (mem_names_declaredNames.mpr ⟨name, hname⟩)
  rwa [hname.unique (declares_of_mem hfound) h]

theorem declaredNames_perm (h : (Members.names (declarations tree)).Nodup) :
    (declaredNames tree).Perm (declarations tree) := by
  refine (List.perm_ext_iff_of_nodup (nodup_declaredNames tree).of_map h.of_map).mpr ?_
  intro ⟨id, name⟩
  rw [mem_declaredNames_iff h, mem_declarations_iff]

/-! ### Another order of members -/

theorem name_of_declaration? {ms : Members} (h : declaration? ms = some (id, name)) :
    name = (Members.get? ms "name").getD .null := by
  rw [declaration?] at h
  split at h
  · cases h
    rfl
  · cases h

/-- Trees that differ in the order of members only, and not in the ids that nodes declare. The text of
an id that has several members itself shows their order. -/
inductive Rearranged : Document → Document → Prop where
  | same (d : Document) : Rearranged d d
  | list {xs ys : List Document} (length : xs.length = ys.length)
      (items : ∀ (i : Nat) (x y : Document), xs[i]? = some x → ys[i]? = some y → Rearranged x y) :
      Rearranged (.list xs) (.list ys)
  | object {ms ns : Members} (names : ms.names.Perm ns.names)
      (values : ∀ m ∈ ms, ∀ n ∈ ns, m.1 = n.1 → Rearranged m.2 n.2)
      (ids : (declaration? ms).map (·.1) = (declaration? ns).map (·.1)) :
      Rearranged (.object ms) (.object ns)

namespace Rearranged

theorem symm (h : Rearranged tree tree') : Rearranged tree' tree := by
  induction h with
  | same d => exact .same d
  | list length _ ih => exact .list length.symm fun i x y hx hy => ih i y x hy hx
  | object names _ ids ih =>
    exact .object names.symm (fun m hm n hn hname => ih n hn m hm hname.symm) ids.symm

theorem reordered (h : Rearranged tree tree') : Reordered tree tree' := by
  induction h with
  | same d => exact .same d
  | list length _ ih => exact .list length ih
  | object names _ _ ih => exact .object names ih

/-- What a node declares has the same name, up to the order of members. -/
theorem exists_declares (h : Rearranged tree tree') (hname : Declares tree id name) :
    ∃ name', Declares tree' id name' ∧ Reordered name name' := by
  induction h generalizing name with
  | same d => exact ⟨name, hname, .same name⟩
  | @list xs ys length items ih =>
    obtain ⟨x, hx, hname⟩ := declares_list.mp hname
    obtain ⟨i, hi, rfl⟩ := List.getElem_of_mem hx
    have hy : ys[i]? = some ys[i] := List.getElem?_eq_getElem (length ▸ hi)
    obtain ⟨name', hname', hsame⟩ := ih i xs[i] ys[i] (List.getElem?_eq_getElem hi) hy hname
    exact ⟨name', declares_list.mpr ⟨ys[i], List.getElem_mem _, hname'⟩, hsame⟩
  | @object ms ns names values ids ih =>
    rcases declares_object.mp hname with hown | ⟨inner, hinner, hname⟩
    · have hown' := ids.symm.trans (congrArg (Option.map (·.1)) hown)
      obtain ⟨⟨_, name'⟩, hname', rfl⟩ := Option.map_eq_some_iff.mp hown'
      refine ⟨name', declares_object.mpr (.inl hname'), ?_⟩
      rw [name_of_declaration? hown, name_of_declaration? hname']
      exact Document.reordered_member names (fun m hm n hn hkey => (values m hm n hn hkey).reordered) _
    · obtain ⟨m, hm, rfl⟩ := List.mem_map.mp hinner
      obtain ⟨n, hn, hkey⟩ := List.mem_map.mp (names.mem_iff.mp (List.mem_map_of_mem hm))
      obtain ⟨name', hname', hsame⟩ := ih m hm n hn hkey.symm hname
      exact ⟨name', declares_object.mpr (.inr ⟨n.2, List.mem_map_of_mem hn, hname'⟩), hsame⟩

end Rearranged

/-- What is found in a rearranged tree is the same up to the order of members, even though nodes are
come to in another order. -/
theorem Rearranged.reordered_declaredNames (h : Rearranged tree tree')
    (hids : (Members.names (declarations tree)).Nodup) :
    Reordered (.object (declaredNames tree)) (.object (declaredNames tree')) := by
  refine .object ?_ ?_
  · refine (List.perm_ext_iff_of_nodup (nodup_declaredNames tree)
      (nodup_declaredNames tree')).mpr fun id => ?_
    rw [mem_names_declaredNames, mem_names_declaredNames]
    constructor
    · intro ⟨name, hname⟩
      obtain ⟨name', hname', -⟩ := h.exists_declares hname
      exact ⟨name', hname'⟩
    · intro ⟨name, hname⟩
      obtain ⟨name', hname', -⟩ := h.symm.exists_declares hname
      exact ⟨name', hname'⟩
  · intro ⟨id, name⟩ hname ⟨id', name'⟩ hname' hid
    obtain rfl : id = id' := hid
    obtain ⟨found, hfound, hsame⟩ := h.symm.exists_declares (declares_of_mem hname')
    rw [(declares_of_mem hname).unique hfound hids]
    exact hsame.symm

/-! ### All immutable variables -/

/-- In a tree in which no two nodes declare an immutable variable of the same id, the walk with a stack
ends, and not before all nodes are done. It has found the names of all that is declared, at whatever
depth, and no others: what a walk by recursion finds. Another order of members makes no difference as
long as it leaves the texts of the ids alone. -/
theorem declaredNames_of_distinct (tree : Document)
    (hids : (Members.names (declarations tree)).Nodup) :
    (Walk.round^[totalNodes (Walk.start tree).left] (Walk.start tree) = ⟨declaredNames tree, []⟩ ∧
      ∀ k < totalNodes (Walk.start tree).left, (Walk.round^[k] (Walk.start tree)).left ≠ []) ∧
    (Members.names (declaredNames tree)).Nodup ∧
    (∀ id name, (id, name) ∈ declaredNames tree ↔ Declares tree id name) ∧
    (declaredNames tree).Perm (walked [] tree) ∧
    ∀ tree', Rearranged tree tree' →
      Reordered (.object (declaredNames tree)) (.object (declaredNames tree')) := by
  have hend : Walk.round^[totalNodes (Walk.start tree).left] (Walk.start tree) =
      ⟨declaredNames tree, []⟩ := by
    rw [Walk.rounds_eq, Walk.declaredFrom_start]
  have hwalked : (declaredNames tree).Perm (walked [] tree) := by
    rw [walked_of_nodup hids]
    exact declaredNames_perm hids
  refine ⟨⟨hend, fun k hk => Walk.left_ne_nil hk⟩, nodup_declaredNames tree, ?_, hwalked, ?_⟩
  · intro id name
    exact mem_declaredNames_iff hids
  · intro tree' h
    exact h.reordered_declaredNames hids

/-- A node that declares an immutable variable. -/
def declaring (id : Document) (name : String) : Document :=
  .object [("nodeType", .text "VariableDeclaration"), ("mutability", .text "immutable"), ("id", id),
    ("name", .text name)]

/-- Two variables, one of them further down than the other. -/
def twoDeclared : Document :=
  .list [.object [("nodes", .list [declaring (.int 7) "owner", .null])], declaring (.int 31) "limit"]

theorem declaredNames_of_distinct_two :
    (Members.names (declarations twoDeclared)).Nodup ∧
    (Walk.round^[totalNodes (Walk.start twoDeclared).left] (Walk.start twoDeclared) =
        ⟨declaredNames twoDeclared, []⟩ ∧
      ∀ k < totalNodes (Walk.start twoDeclared).left,
        (Walk.round^[k] (Walk.start twoDeclared)).left ≠ []) ∧
    (Members.names (declaredNames twoDeclared)).Nodup ∧
    (∀ id name, (id, name) ∈ declaredNames twoDeclared ↔ Declares twoDeclared id name) ∧
    (declaredNames twoDeclared).Perm (walked [] twoDeclared) ∧
    ∀ tree', Rearranged twoDeclared tree' →
      Reordered (.object (declaredNames twoDeclared)) (.object (declaredNames tree')) :=
  have hids : (Members.names (declarations twoDeclared)).Nodup := by decide +kernel
  ⟨hids, declaredNames_of_distinct twoDeclared hids⟩

/-- An id with two members. -/
def pairId : Document := .object [("a", .int 1), ("b", .int 2)]

/-- The members of `pairId` in the other order. -/
def swappedId : Document := .object [("b", .int 2), ("a", .int 1)]

theorem reordered_declaring {d d' : Document} (h : Reordered d d') (name : String) :
    Reordered (declaring d name) (declaring d' name) := by
  refine .object (List.Perm.refl _) ?_
  simpa using ⟨.same _, .same _, h, .same _⟩

/-- The text of an id that has members itself shows their order, so a name is found under another id
after they have changed places. -/
theorem declaredNames_swapped :
    Reordered (declaring pairId "x") (declaring swappedId "x") ∧
    (Members.names (declarations (declaring pairId "x"))).Nodup ∧
    (Members.names (declarations (declaring swappedId "x"))).Nodup ∧
    ¬Reordered (.object (declaredNames (declaring pairId "x")))
      (.object (declaredNames (declaring swappedId "x"))) := by
  have hids : Members.names (declarations (declaring pairId "x")) =
      ["\x7b'a': 1, 'b': 2\x7d"] := by decide +kernel
  have hids' : Members.names (declarations (declaring swappedId "x")) =
      ["\x7b'b': 2, 'a': 1\x7d"] := by decide +kernel
  have hnodup : (Members.names (declarations (declaring pairId "x"))).Nodup := by
    rw [hids]
    exact List.nodup_singleton _
  have hnodup' : (Members.names (declarations (declaring swappedId "x"))).Nodup := by
    rw [hids']
    exact List.nodup_singleton _
  refine ⟨reordered_declaring (.of_perm (.swap _ _ _) (by decide)) "x", hnodup, hnodup', ?_⟩
  intro h
  have hperm : (Members.names (declarations (declaring pairId "x"))).Perm
      (Members.names (declarations (declaring swappedId "x"))) :=
    (Members.names_perm (declaredNames_perm hnodup)).symm.trans
      (h.names_perm.trans (Members.names_perm (declaredNames_perm hnodup')))
  rw [hids, hids', List.singleton_perm_singleton] at hperm
  exact absurd hperm (by decide)

end Solidity

end Attest
