import Attest.Build.Output
import Mathlib.Data.List.Perm.Basic
import Mathlib.Data.List.Nodup

/-! # Which contract a lookup finds

A contract that is not among the compiled ones by its path may be found by its name and the name of its
file, if only one is like it. The directory of the file that is found does not matter: it need not be
the one that was asked for. -/

namespace Attest

/-! ### Names of files -/

namespace Path

/-- A text that is no more than a file's name: it tells of no directory. -/
def IsBare (s : String) : Prop := '/' ∉ s.toList ∧ s ≠ "."

instance (s : String) : Decidable (IsBare s) := inferInstanceAs (Decidable (_ ∧ _))

theorem pieces_of_no_slash {cs : List Char} (h : '/' ∉ cs) (current : List Char) :
    pieces current cs = [current.reverse ++ cs] := by
  induction cs generalizing current with
  | nil => simp [pieces]
  | cons c cs ih =>
    obtain ⟨hc, hcs⟩ : '/' ≠ c ∧ '/' ∉ cs := by simpa using h
    rw [pieces, ih hcs]
    · simp
    · exact fun h => hc h.symm

theorem name_ofText_of_isBare {s : String} (h : IsBare s) : (ofText s).name = s := by
  obtain ⟨hslash, hpoint⟩ := h
  have hhead : s.toList.head? ≠ some '/' := fun h => hslash (List.mem_of_head? h)
  have hroot : s ≠ root := by
    rintro rfl
    exact hslash (by decide)
  rw [ofText, pieces_of_no_slash hslash, if_neg hhead]
  by_cases hempty : s = ""
  · subst hempty
    decide
  · simp [name, Option.filter, hempty, hpoint, hroot]

end Path

/-! ### Entries by key -/

namespace Members

variable {ms : Members} {e : String × Document} {k : String}

/-- Where names are not repeated, an entry is told by its name. -/
theorem eq_of_mem_of_name_eq (h : ms.names.Nodup) {e' : String × Document} (he : e ∈ ms)
    (he' : e' ∈ ms) (hname : e.1 = e'.1) : e = e' :=
  List.inj_on_of_nodup_map h he he' hname

theorem mem_names_iff : k ∈ ms.names ↔ ∃ d, (k, d) ∈ ms := by
  simp [names]

theorem find?_name_eq_some_iff (h : ms.names.Nodup) :
    ms.find? (fun m => m.1 == k) = some e ↔ e ∈ ms ∧ e.1 = k := by
  constructor
  · intro hfind
    exact ⟨List.mem_of_find?_eq_some hfind, by simpa using List.find?_some hfind⟩
  · rintro ⟨he, rfl⟩
    cases hfind : ms.find? fun m => m.1 == e.1 with
    | none => simpa using List.find?_eq_none.mp hfind e he
    | some e' =>
      have hname : e'.1 = e.1 := by simpa using List.find?_some hfind
      rw [eq_of_mem_of_name_eq h (List.mem_of_find?_eq_some hfind) he hname]

theorem filter_eq_singleton_iff (h : ms.names.Nodup) {p : String → Bool} :
    ms.filter (fun m => p m.1) = [e] ↔
      e ∈ ms ∧ p e.1 = true ∧ ∀ k ∈ ms.names, p k = true → k = e.1 := by
  have hnodup : (ms.filter fun m => p m.1).Nodup := (List.Nodup.of_map _ h).filter _
  rw [← List.perm_singleton, List.perm_ext_iff_of_nodup hnodup (List.nodup_singleton e)]
  simp only [List.mem_filter, List.mem_singleton]
  constructor
  · intro hiff
    obtain ⟨he, hp⟩ := (hiff e).mpr rfl
    refine ⟨he, hp, fun k hk hpk => ?_⟩
    obtain ⟨d, hd⟩ := mem_names_iff.mp hk
    rw [← (hiff (k, d)).mp ⟨hd, hpk⟩]
  · rintro ⟨he, hp, honly⟩ e'
    constructor
    · rintro ⟨he', hp'⟩
      exact eq_of_mem_of_name_eq h he' he (honly e'.1 (List.mem_map_of_mem he') hp')
    · rintro rfl
      exact ⟨he, hp⟩

end Members

/-! ### Lookups -/

namespace Build.Output

variable {o : Output} {c : Contract} {k : String} {d : Document}

theorem resembles_iff : resembles c k = true ↔
    (splitKey k).2 = c.name ∧ (Path.ofText (splitKey k).1).name = (Path.ofText c.path).name := by
  simp [resembles]

/-- A lookup finds the entry of a contract's own key, or if there is none, of the only key that
resembles it. -/
theorem entryFor?_eq_some_iff (h : (Members.names o).Nodup) :
    entryFor? o c = some (k, d) ↔ (k, d) ∈ o ∧ (k = c.text ∨ c.text ∉ Members.names o ∧
      resembles c k = true ∧ ∀ k' ∈ Members.names o, resembles c k' = true → k' = k) := by
  cases hfind : List.find? (fun e => e.1 == c.text) o with
  | some e =>
    obtain ⟨he, hname⟩ := (Members.find?_name_eq_some_iff h).mp hfind
    have hmem : c.text ∈ Members.names o := hname ▸ List.mem_map_of_mem he
    rw [entryFor?, hfind]
    constructor
    · rintro ⟨⟩
      exact ⟨he, .inl hname⟩
    · rintro ⟨hk, rfl | ⟨hnone, -⟩⟩
      · rw [Members.eq_of_mem_of_name_eq h he hk hname]
      · exact absurd hmem hnone
  | none =>
    have hnone : c.text ∉ Members.names o := by
      intro hmem
      obtain ⟨d', hd'⟩ := Members.mem_names_iff.mp hmem
      simpa using List.find?_eq_none.mp hfind (c.text, d') hd'
    have honly : entryFor? o c = some (k, d) ↔
        List.filter (fun e => resembles c e.1) o = [(k, d)] := by
      rw [entryFor?, hfind]
      dsimp only
      split
      · rename_i e hfilter
        simp [hfilter]
      · rename_i hfilter
        exact iff_of_false (by simp) (hfilter (k, d))
    rw [honly, Members.filter_eq_singleton_iff h]
    refine and_congr_right fun hk => ?_
    have hown : k ≠ c.text := fun heq => hnone (heq ▸ Members.mem_names_iff.mpr ⟨d, hk⟩)
    simp [hown, hnone]

theorem isSome_entryFor?_iff (h : (Members.names o).Nodup) :
    (entryFor? o c).isSome = true ↔ c.text ∈ Members.names o ∨
      ∃! k, k ∈ Members.names o ∧ resembles c k = true := by
  rw [Option.isSome_iff_exists]
  constructor
  · rintro ⟨⟨k, d⟩, hfound⟩
    obtain ⟨hk, rfl | ⟨-, hlike, honly⟩⟩ := (entryFor?_eq_some_iff h).mp hfound
    · exact .inl (Members.mem_names_iff.mpr ⟨d, hk⟩)
    · exact .inr ⟨k, ⟨Members.mem_names_iff.mpr ⟨d, hk⟩, hlike⟩, fun k' hk' => honly k' hk'.1 hk'.2⟩
  · intro hone
    by_cases hown : c.text ∈ Members.names o
    · obtain ⟨d, hd⟩ := Members.mem_names_iff.mp hown
      exact ⟨_, (entryFor?_eq_some_iff h).mpr ⟨hd, .inl rfl⟩⟩
    · obtain ⟨k, ⟨hk, hlike⟩, honly⟩ := hone.resolve_left hown
      obtain ⟨d, hd⟩ := Members.mem_names_iff.mp hk
      refine ⟨_, (entryFor?_eq_some_iff h).mpr ⟨hd, .inr ⟨hown, hlike, fun k' hk' hlike' => ?_⟩⟩⟩
      exact honly k' ⟨hk', hlike'⟩

/-- A key that is known by its file's name alone resembles a contract just when it is named like the
contract's file. -/
theorem resembles_iff_of_isBare (hbare : Path.IsBare (splitKey k).1) :
    resembles c k = true ↔ splitKey k = ((Path.ofText c.path).name, c.name) := by
  rw [resembles_iff, Path.name_ofText_of_isBare hbare, Prod.ext_iff, and_comm]

/-- What a lookup finds is the contract itself, or where that is not compiled, the only one of its name
in a file of its file's name, in whatever directory. Only where all such files are known by no more
than their names, what is found is the contract itself or one in a file without a directory. -/
theorem lookup_finds (o : Output) (c : Contract) (h : (Members.names o).Nodup) :
    (∀ k d, entryFor? o c = some (k, d) ↔ (k, d) ∈ o ∧ (k = c.text ∨ c.text ∉ Members.names o ∧
      resembles c k = true ∧ ∀ k' ∈ Members.names o, resembles c k' = true → k' = k)) ∧
    ((entryFor? o c).isSome = true ↔ c.text ∈ Members.names o ∨
      ∃! k, k ∈ Members.names o ∧ resembles c k = true) ∧
    ((∀ k ∈ Members.names o, resembles c k = true → k ≠ c.text → Path.IsBare (splitKey k).1) →
      ∀ k d, entryFor? o c = some (k, d) → k = c.text ∨
        Path.IsBare (splitKey k).1 ∧ splitKey k = ((Path.ofText c.path).name, c.name) ∧
          ∀ k' ∈ Members.names o, resembles c k' = true → k' = k) := by
  refine ⟨fun k d => entryFor?_eq_some_iff h, isSome_entryFor?_iff h, fun hbare k d hfound => ?_⟩
  obtain ⟨hk, hown | ⟨hnone, hlike, honly⟩⟩ := (entryFor?_eq_some_iff h).mp hfound
  · exact .inl hown
  · have hname : k ∈ Members.names o := Members.mem_names_iff.mpr ⟨d, hk⟩
    have hkey := hbare k hname hlike fun heq => hnone (heq ▸ hname)
    exact .inr ⟨hkey, (resembles_iff_of_isBare hkey).mp hlike, honly⟩

/-- A dependency is found in place of a contract that is not compiled. -/
theorem dependency_found :
    (entryFor? [("lib/dep/Counter.sol:Counter", .null)] ⟨"src/Counter.sol", "Counter"⟩).map (·.1) =
        some "lib/dep/Counter.sol:Counter" ∧
      "lib/dep/Counter.sol:Counter" ≠ Contract.text ⟨"src/Counter.sol", "Counter"⟩ ∧
      ¬Path.IsBare (splitKey "lib/dep/Counter.sol:Counter").1 := by
  decide +kernel

theorem lookup_finds_bare :
    (Members.names [("Counter.sol:Counter", .null)]).Nodup ∧
      ∃ d, entryFor? [("Counter.sol:Counter", .null)] ⟨"src/Counter.sol", "Counter"⟩ =
        some ("Counter.sol:Counter", d) := by
  have hnodup : (Members.names [("Counter.sol:Counter", .null)]).Nodup := by decide
  refine ⟨hnodup, .null, ?_⟩
  refine ((lookup_finds _ ⟨"src/Counter.sol", "Counter"⟩ hnodup).1 _ _).mpr
    ⟨List.mem_singleton_self _, ?_⟩
  decide +kernel

end Build.Output

end Attest
