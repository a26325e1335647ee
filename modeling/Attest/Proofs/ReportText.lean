import Attest.Proofs.JsonRoundTrip
import Attest.Proofs.ReadDocuments
import Attest.Report
import Mathlib

/-! # Reports as JSON

A report can be written unless one of its integers is too long or its levels are too many. Its text is
read back as the report's document, on one line or on many, and does not tell in which order the members
of its objects were put in. -/

namespace Attest

open Document

namespace Document

/-- An object in which one member is reordered. -/
theorem Reordered.member {v w : Document} (h : Reordered v w) (before : Members) (name : String)
    (after : Members) (hnames : (Members.names (before ++ (name, v) :: after)).Nodup) :
    Reordered (.object (before ++ (name, v) :: after))
      (.object (before ++ (name, w) :: after)) := by
  refine .object (by simp [Members.names]) fun m hm n hn hname => ?_
  rw [Members.names, List.map_append, List.map_cons, List.nodup_middle, List.nodup_cons,
    ← List.map_append] at hnames
  rw [List.perm_middle.mem_iff, List.mem_cons] at hm hn
  rcases hm with rfl | hm
  · rcases hn with rfl | hn
    · exact h
    · exact absurd (hname ▸ List.mem_map_of_mem hn) hnames.1
  · rcases hn with rfl | hn
    · exact absurd (hname ▸ List.mem_map_of_mem hm) hnames.1
    · rw [List.inj_on_of_nodup_map hnames.2 hm hn hname]
      exact .same n.2

theorem IsPlain.texts (ss : List String) : IsPlain (.list (ss.map .text)) := by
  refine .list fun d hd => ?_
  obtain ⟨s, -, rfl⟩ := List.mem_map.mp hd
  exact .text s

theorem IsPlain.ofOption {α : Type} {f : α → Document} {x : Option α} (h : ∀ a ∈ x, IsPlain (f a)) :
    IsPlain (Document.ofOption f x) := by
  cases x with
  | none => exact .null
  | some a => exact h a rfl

end Document

/-! ## What a report is made of -/

/-- A request whose values, as far as they are kept as given, are plain. -/
structure Request.IsPlain (r : Request) : Prop where
  repository : r.repository.IsPlain
  profile : r.profile.IsPlain
  chain : r.chain.IsPlain

/-- An entry whose chain is plain, and so is the interface that was recovered. -/
structure Chain.Entry.IsPlain (e : Chain.Entry) : Prop where
  chain : (e.spelling.getD (.int e.chain)).IsPlain
  metadata : ∀ fields ∈ e.metadata, (fields.map (·.1)).Nodup
  abi : ∀ d ∈ e.decompilation, ∀ f ∈ d.abi, f.IsPlain

/-- An artifact whose interface and other facts are plain. -/
structure Artifact.IsPlain (a : Artifact) : Prop where
  compilerVersion : a.compilerVersion.IsPlain
  abi : ∀ f ∈ a.abi, f.IsPlain
  immutables : ∀ v ∈ a.immutables, v.name.IsPlain

structure Report.IsPlain (r : Report) : Prop where
  request : ∀ q ∈ r.request, q.IsPlain
  entries : ∀ e ∈ r.entries, e.IsPlain
  artifact : ∀ a ∈ r.artifact, a.IsPlain

theorem Request.IsPlain.toDocument {r : Request} (h : r.IsPlain) : r.toDocument.IsPlain := by
  refine .object (by simp [Members.names]) ?_
  simp only [List.forall_mem_cons]
  exact ⟨h.repository, .text _, .text _, .text _, .ofOption fun s _ => .text s, h.profile, h.chain,
    by simp⟩

theorem Decompilation.isPlain_toDocument {d : Decompilation} (h : ∀ f ∈ d.abi, f.IsPlain) :
    d.toDocument.IsPlain := by
  refine .object (by simp [Members.names]) ?_
  simp only [List.forall_mem_cons]
  exact ⟨.text _, .list h, .text _, by simp⟩

theorem Chain.Entry.isPlain_metadataDocument {fields : List (String × String)}
    (h : (fields.map (·.1)).Nodup) : (metadataDocument fields).IsPlain := by
  refine .object ?_ fun m hm => ?_
  · rw [Members.names, List.map_map]
    exact h
  · obtain ⟨f, -, rfl⟩ := List.mem_map.mp hm
    exact .text f.2

theorem Chain.Entry.IsPlain.toDocument {e : Chain.Entry} (h : e.IsPlain) :
    e.toDocument.IsPlain := by
  refine .object (by simp [Members.names]) ?_
  simp only [List.forall_mem_cons]
  exact ⟨h.chain, .text _, .text _, .ofOption fun s _ => .text s, Document.IsPlain.texts _,
    .ofOption fun fields hfields => isPlain_metadataDocument (h.metadata fields hfields),
    .ofOption fun d hd => Decompilation.isPlain_toDocument (h.abi d hd), by simp⟩

theorem Artifact.IsPlain.summary {a : Artifact} (h : a.IsPlain) : a.summary.IsPlain := by
  refine .object (by simp [Members.names]) ?_
  simp only [List.forall_mem_cons]
  refine ⟨.text _, h.compilerVersion, .list h.abi, .int _, .list fun d hd => ?_, by simp⟩
  obtain ⟨v, hv, rfl⟩ := List.mem_map.mp hd
  exact h.immutables v hv

theorem Report.IsPlain.toDocument {r : Report} (h : r.IsPlain) : r.toDocument.IsPlain := by
  refine .object (by simp [Members.names]) ?_
  simp only [List.forall_mem_cons]
  refine ⟨.ofOption fun q hq => (h.request q hq).toDocument, .text _, .list fun d hd => ?_,
    .ofOption fun a ha => (h.artifact a ha).summary, by simp⟩
  obtain ⟨e, he, rfl⟩ := List.mem_map.mp hd
  exact (h.entries e he).toDocument

/-! ## The text -/

/-- Interfaces that differ only in the order of members give reports that do. -/
theorem Report.reordered_of_abi {r : Report} {a : Artifact} {abi : List Document}
    (ha : r.artifact = some a) (h : Reordered (.list a.abi) (.list abi)) :
    Reordered r.toDocument ({ r with artifact := some { a with abi } } : Report).toDocument := by
  have hsummary : Reordered a.summary ({ a with abi } : Artifact).summary :=
    h.member [("contract", .text a.contract.text), ("compiler_version", a.compilerVersion)]
      "abi" [("metadata_length", .int a.metadataLength),
        ("immutables", .list (a.immutables.map Immutable.name))]
      (by simp [Members.names])
  rw [toDocument, ha]
  exact hsummary.member
    [("request", .ofOption Request.toDocument r.request), ("address", .text r.address),
      ("chains", .list (r.entries.map Chain.Entry.toDocument))]
    "artifact" [] (by simp [Members.names])

/-- An entry of an interface. -/
def sampleMembers : Members :=
  [("type", .text "é"), ("inputs", .list [.int (-36893488147419103232)])]

/-- A report on a build whose interface is this entry alone. -/
def Report.ofEntry (members : Members) : Report where
  request := none
  address := "0x\u00e9\n"
  entries := [Chain.Entry.failed 1 "no answer \"😀\""]
  artifact := some {
    contract := .contract ⟨"src/A.sol", "A"⟩
    creationCode := []
    runtimeCode := []
    abi := [.object members] }

end Attest
