import Attest.Proofs.BuildFailFast
import Attest.Proofs.OutputFlaws
import Attest.Verifier

/-! # Builds fail with faults

Commands and time only decide how far a build gets. What it comes to then is read off the repository
and the compiler's output, and it is an artifact or a fault unless one of them is flawed. -/

namespace Attest

namespace Tool

/-- A step that, if something goes wrong in its start, ends as the operating system reports. -/
def Step.IsOrdinary (s : Step) : Prop := ∀ m, s.mishap = some m → m.isSystem = true

theorem Step.IsOrdinary.not_broken {s : Step} (h : s.IsOrdinary) (c : Command) (d : Defect) :
    (s.perform c).2 ≠ .broken d := by
  unfold Step.perform
  split
  · simp
  · cases hmishap : s.mishap with
    | none => simp
    | some m => simp [h m hmishap]

end Tool

namespace Build

open Tool Except

/-! ### Work in a workshop -/

/-- A workshop with a repository and a compiler, where programs are ordinary. -/
structure Workshop.Offers (w : Workshop) (t : Tree) (compiler : Compiler) : Prop where
  repository : w.repository = t
  compiler : w.compiler = compiler
  git : ∀ s ∈ w.git, s.IsOrdinary
  forge : ∀ s ∈ w.forge, s.IsOrdinary

namespace Workshop.Offers

variable {w : Workshop} {t : Tree} {compiler : Compiler}

theorem answer (h : w.Offers t compiler) (c : Command) : (w.answer c).IsOrdinary := by
  have hhead {steps : List Step} (h : ∀ s ∈ steps, s.IsOrdinary) :
      (steps.head?.getD {}).IsOrdinary := by
    cases steps with
    | nil =>
      intro m hm
      cases hm
    | cons s steps => exact h s List.mem_cons_self
  unfold Workshop.answer
  split
  · exact hhead h.git
  · exact hhead h.forge

theorem act (h : w.Offers t compiler) (a : Act) : (w.act a).Offers t compiler := by
  cases a with
  | ran c =>
    refine ⟨h.repository, h.compiler, fun s hs => h.git s ?_, fun s hs => h.forge s ?_⟩
    · simp only [Workshop.act] at hs
      split at hs
      · exact List.mem_of_mem_tail hs
      · exact hs
    · simp only [Workshop.act] at hs
      split at hs
      · exact hs
      · exact List.mem_of_mem_tail hs
  | called call => exact ⟨h.repository, h.compiler, h.git, h.forge⟩
  | waited span => exact ⟨h.repository, h.compiler, h.git, h.forge⟩

theorem replay (h : w.Offers t compiler) (acts : List Act) : (w.replay acts).Offers t compiler := by
  induction acts generalizing w with
  | nil => exact h
  | cons a acts ih => exact ih (h.act a)

end Workshop.Offers

namespace Work

/-- Work that leaves what a workshop offers, and that ends with a fault or in some way. -/
def EndsIn (x : Work α) (t : Tree) (compiler : Compiler) (P : Except Failure α → Prop) : Prop :=
  ∀ w, w.Offers t compiler → (x.run.run w).2.Offers t compiler ∧
    ((∃ f, (x.run.run w).1 = .error (.fault f)) ∨ P (x.run.run w).1)

/-- Work that comes to some result, unless it ends with a fault. -/
abbrev Yields (x : Work α) (t : Tree) (compiler : Compiler) : Prop :=
  x.EndsIn t compiler fun r => ∃ a, r = .ok a

variable {t : Tree} {compiler : Compiler} {P : Except Failure α → Prop}
  {Q : Except Failure β → Prop}

theorem EndsIn.bind {x : Work α} {f : α → Work β} (hx : x.EndsIn t compiler P)
    (herror : ∀ d, P (.error (.defect d)) → Q (.error (.defect d)))
    (hf : ∀ a, P (.ok a) → (f a).EndsIn t compiler Q) : (x >>= f).EndsIn t compiler Q := by
  intro w hw
  obtain ⟨hleft, hends⟩ := hx w hw
  rw [run_bind]
  cases hr : x.run.run w with
  | mk r w' =>
    rw [hr] at hleft hends
    cases r with
    | ok a =>
      rcases hends with ⟨f, h⟩ | hP
      · cases h
      · exact hf a hP w' hleft
    | error e =>
      refine ⟨hleft, ?_⟩
      cases e with
      | fault f => exact .inl ⟨f, rfl⟩
      | defect d =>
        rcases hends with ⟨f, h⟩ | hP
        · cases h
        · exact .inr (herror d hP)

theorem Yields.bind {x : Work α} {f : α → Work β} (hx : x.Yields t compiler)
    (hf : ∀ a, (f a).EndsIn t compiler Q) : (x >>= f).EndsIn t compiler Q := by
  refine EndsIn.bind hx (fun d h => ?_) fun a _ => hf a
  obtain ⟨a, h⟩ := h
  cases h

theorem EndsIn.and {x : Work α} {P' : Except Failure α → Prop} (h : x.EndsIn t compiler P)
    (h' : x.EndsIn t compiler P') : x.EndsIn t compiler fun r => P r ∧ P' r := by
  intro w hw
  obtain ⟨hleft, hends⟩ := h w hw
  obtain ⟨-, hends'⟩ := h' w hw
  refine ⟨hleft, ?_⟩
  rcases hends with hfault | hP
  · exact .inl hfault
  · exact hends'.imp_right (And.intro hP)

theorem endsIn_fail (f : Fault) : (fail f : Work α).EndsIn t compiler P :=
  fun _ hw => ⟨hw, .inl ⟨f, rfl⟩⟩

theorem endsIn_ofExcept (r : Except Failure α) : (ofExcept r).EndsIn t compiler (· = r) :=
  fun _ hw => ⟨hw, .inr rfl⟩

theorem endsIn_get_bind {f : Workshop → Work α}
    (h : ∀ w, w.Offers t compiler → (f w).EndsIn t compiler P) :
    ((get : Work Workshop) >>= f).EndsIn t compiler P := by
  intro w hw
  rw [run_bind]
  exact h w hw w hw

/-- What is read, and what is made of it. -/
theorem endsIn_read {F G : Prop} {r : Except Failure α} {f : α → Work β} (hr : Ends G r)
    (hG : G → F)
    (hf : ∀ a, r = .ok a → ¬G → (f a).EndsIn t compiler (Ends F)) :
    (ofExcept r >>= f).EndsIn t compiler (Ends F) := by
  cases hr with
  | result h => exact (endsIn_ofExcept _).bind (fun _ hd => nomatch hd) fun a ha => hf a ha.symm h
  | fault f => exact fun _ hw => ⟨hw, .inl ⟨f, rfl⟩⟩
  | defect h => exact fun _ hw => ⟨hw, .inr (.defect (hG h))⟩

theorem endsIn_of_ends {F : Prop} {r : Except Failure α} (h : Ends F r) :
    (ofExcept r).EndsIn t compiler (Ends F) :=
  fun _ hw => ⟨hw, .inr h⟩

theorem endsIn_ofDefect {F : Prop} {r : Except Defect α} (h : r.Fails ↔ F) :
    (ofDefect r).EndsIn t compiler (Ends F) :=
  fun _ hw => ⟨hw, .inr (.of_lift h)⟩

theorem endsIn_withScratch {x : Work α} (h : x.EndsIn t compiler P) :
    (withScratch x).EndsIn t compiler P := by
  intro w hw
  obtain ⟨hleft, hends⟩ :=
    h { w with scratch := w.scratch + 1 } ⟨hw.repository, hw.compiler, hw.git, hw.forge⟩
  rw [run_withScratch]
  exact ⟨⟨hleft.repository, hleft.compiler, hleft.git, hleft.forge⟩, hends⟩

/-- What work comes to that goes by a plan. -/
theorem endsIn_of_obeys {x : Work α} {plan : List Planned} {Q : Tree → Compiler → α → Prop}
    (h : ∀ w, x.Obeys w plan (Q w.repository w.compiler)) :
    x.EndsIn t compiler fun r => ∀ a, r = .ok a → Q t compiler a := by
  intro w hw
  obtain ⟨acts, hleft, -, hfollows⟩ := h w
  rw [hw.repository, hw.compiler] at hfollows
  refine ⟨hleft ▸ hw.replay acts, .inr fun a ha => ?_⟩
  rw [ha] at hfollows
  exact hfollows.of_ok.2.2

theorem yields_callCompiler (call : List Document) : (callCompiler call).Yields t compiler :=
  fun _ hw => ⟨hw.act (.called call), .inr ⟨(), rfl⟩⟩

theorem yields_pass (span : Seconds) : (pass span).Yields t compiler :=
  fun _ hw => ⟨hw.act (.waited span), .inr ⟨(), rfl⟩⟩

theorem yields_pure (a : α) : (pure a : Work α).Yields t compiler :=
  fun _ hw => ⟨hw, .inr ⟨a, rfl⟩⟩

/-- An ordinary program can fail, but it does not break the work that runs it. -/
theorem endsIn_ran_bind {x : Work Outcome} {c : Command} {f : Outcome → Work α}
    (hx : ∀ w, x.run.run w = (.ok ((w.answer c).perform c).2, w.act (.ran c)))
    (hf : ∀ o, (∀ d, o ≠ .broken d) → (f o).EndsIn t compiler P) :
    (x >>= f).EndsIn t compiler P := by
  intro w hw
  rw [run_bind, hx w]
  exact hf _ ((hw.answer c).not_broken c) _ (hw.act (.ran c))

end Work

variable {t : Tree} {compiler : Compiler}

theorem timeLeft_yields (timeout : Option Binary64) (started : Seconds) :
    (timeLeft timeout started).Yields t compiler := by
  cases timeout with
  | none => exact Work.yields_pure _
  | some limit =>
    cases limit with
    | finite negative m e =>
      refine Work.endsIn_get_bind fun w _ => ?_
      dsimp only
      split
      · exact Work.endsIn_fail _
      · exact Work.yields_pure _
    | infinite negative =>
      cases negative with
      | true => exact Work.endsIn_fail _
      | false => exact Work.yields_pure _
    | undefined => exact Work.yields_pure _

namespace Checkout

theorem run_yields {c : Command} (hc : c.arguments.head? = some "git")
    (unavailable failed : String → Fault) : (run c unavailable failed).Yields t compiler := by
  refine Work.endsIn_ran_bind (fun w => Work.run_runGit hc) fun o hbroken => ?_
  cases o with
  | unavailable details => exact Work.endsIn_fail _
  | broken d => exact absurd rfl (hbroken d)
  | exited code stdout stderr =>
    dsimp only
    split
    · exact Work.endsIn_fail _
    · exact Work.yields_pure _

theorem clone_yields (url directory : String) (limit : Option Limit) :
    (clone longest url directory limit).Yields t compiler :=
  run_yields rfl _ _

theorem checkout_yields (directory commit : String) (limit : Option Limit) :
    (checkout longest directory commit limit).Yields t compiler :=
  (run_yields rfl _ _).bind fun _ => run_yields rfl _ _

end Checkout

namespace Forge

/-- What forge's part of a build is flawed by. -/
inductive Flawed (t : Tree) (profile : Document) : Prop
  | configuration (h : Project.Unreadable t)
  | profile {config : Document} (hconfig : Project.readConfig t = .ok (some config))
      (h : Project.FlawedProfile config profile)
  | directory {config d : Document} {settings : Members}
      (hconfig : Project.readConfig t = .ok (some config))
      (hsettings : Project.resolveProfile config profile = .ok settings)
      (hout : Members.get? settings "out" = some d) (h : ∀ s, d ≠ .text s)
  | file {config : Document} {settings : Members} {directory path : Path}
      (hconfig : Project.readConfig t = .ok (some config))
      (hsettings : Project.resolveProfile config profile = .ok settings)
      (hdirectory : outputDirectory settings = .ok directory)
      (hpath : path ∈ t.find directory (Path.hasSuffix ".json"))
      (hrecords : path.contains recordsDirectory = false) (h : FlawedFile t path)

theorem fails_outputDirectory_iff {settings : Members} :
    (outputDirectory settings).Fails ↔
      ∃ d, Members.get? settings "out" = some d ∧ ∀ s, d ≠ .text s := by
  unfold outputDirectory
  cases Members.get? settings "out" with
  | none => exact iff_of_false (not_fails_ok _) (by simp)
  | some d => cases d <;> simp

theorem compile_ends (profile : Document) (limit : Option Limit) :
    (compile longest t cloneDirectory profile limit).EndsIn t compiler (Ends (Flawed t profile)) := by
  refine Work.endsIn_read (Project.readConfig_ends t) .configuration fun config? hconfig hreadable => ?_
  cases config? with
  | none => exact Work.endsIn_fail _
  | some config =>
    refine Work.endsIn_read (Project.resolveProfile_ends (Project.opens_of_readConfig hconfig) _)
      (.profile hconfig) fun settings hsettings hprofile => ?_
    refine Work.endsIn_ran_bind (fun w => Work.run_runForge (by simp)) fun o hbroken => ?_
    cases o with
    | unavailable details => exact Work.endsIn_fail _
    | broken d => exact absurd rfl (hbroken d)
    | exited code stdout stderr =>
      dsimp only
      split
      · exact Work.endsIn_fail _
      refine Work.endsIn_ofDefect ?_
      -- Neither the configuration nor the profile is flawed here, which leaves the last two ways.
      rw [fails_bind_iff, fails_outputDirectory_iff]
      simp only [fails_collect_iff]
      constructor
      · rintro (⟨d, hout, h⟩ | ⟨directory, hdirectory, path, hpath, hrecords, h⟩)
        · exact .directory hconfig hsettings hout h
        · exact .file hconfig hsettings hdirectory hpath hrecords h
      · rintro (h | ⟨hconfig', h⟩ | ⟨hconfig', hsettings', hout, h⟩ |
          ⟨hconfig', hsettings', hdirectory, hpath, hrecords, h⟩)
        · exact absurd h hreadable
        · cases hconfig.symm.trans hconfig'
          exact absurd h hprofile
        · cases hconfig.symm.trans hconfig'
          cases hsettings.symm.trans hsettings'
          exact .inl ⟨_, hout, h⟩
        · cases hconfig.symm.trans hconfig'
          cases hsettings.symm.trans hsettings'
          exact .inr ⟨_, hdirectory, _, hpath, hrecords, h⟩

end Forge

namespace Solc

/-- What a part of a build is flawed by that goes through the compiler's own interface. -/
inductive Flawed (t : Tree) (compiled profile target : Document) : Prop
  | configuration (h : Project.Unreadable t)
  | profile {config : Document} (hconfig : Project.readConfig t = .ok (some config))
      (h : Project.FlawedProfile config profile)
  | target (h : ∀ s, target ≠ .text s)
  | settings {config? : Option Document} {settings : Members}
      (hconfig : Project.readConfig t = .ok config?)
      (hsettings : Project.resolveProfile (config?.getD .null) profile = .ok settings)
      (h : Project.FlawedSettings settings)
  | output (h : FlawedOutput compiled)

theorem install_yields (settings : Members) (file source : String) :
    (install settings file source).Yields t compiler := by
  refine Work.endsIn_get_bind fun w _ => ?_
  dsimp only
  split
  · refine (Work.yields_callCompiler _).bind fun _ => ?_
    split
    · exact Work.endsIn_fail _
    · exact Work.yields_pure _
  · split
    · exact Work.endsIn_fail _
    · refine (Work.yields_callCompiler _).bind fun _ => ?_
      split
      · exact Work.endsIn_fail _
      · exact Work.yields_pure _

theorem run_endsIn (input : Document) (directory : String) (version : Document) :
    (run input directory version).EndsIn t compiler (· = .ok compiler.output) := by
  refine Work.endsIn_get_bind fun w hw => ?_
  refine (Work.yields_callCompiler _).bind fun _ => (Work.yields_pass _).bind fun _ => ?_
  split
  · exact Work.endsIn_fail _
  · rw [hw.compiler]
    exact Work.endsIn_ofExcept _

theorem sourceFiles_ends (settings : Members) (target : Document) :
    Ends (∀ s, target ≠ .text s) (sourceFiles t settings [target]) := by
  change Ends _ (targetFiles t [target])
  cases target with
  | text name =>
    unfold targetFiles
    cases t.isFile (Path.ofText name) with
    | true => exact .result fun h => h name rfl
    | false => exact .fault _
  | _ => exact .defect (by simp)

theorem resolveProfile_ends {profile : Document} {config? : Option Document}
    (hconfig : Project.readConfig t = .ok config?)
    (h : (config?.isNone && !Document.isText Project.defaultProfile profile) = false) :
    Ends (∃ config, config? = some config ∧ Project.FlawedProfile config profile)
      (Project.resolveProfile (config?.getD .null) profile) := by
  cases config? with
  | some config =>
    exact (Project.resolveProfile_ends (Project.opens_of_readConfig hconfig) profile).congr (by simp)
  | none =>
    cases profile with
    | text s =>
      obtain rfl : Project.defaultProfile = s := by simpa [Document.isText] using h
      exact .result (by simp)
    | _ => cases h

theorem compile_ends (profile target : Document) :
    (compile t cloneDirectory profile [target]).EndsIn t compiler
      (Ends (Flawed t compiler.output profile target)) := by
  refine Work.endsIn_read (Project.readConfig_ends t) .configuration fun config? hconfig hreadable => ?_
  dsimp only
  split
  · exact Work.endsIn_fail _
  rename_i hdefault
  refine Work.endsIn_read (resolveProfile_ends hconfig (Bool.not_eq_true _ ▸ hdefault)) ?_
    fun settings hsettings hprofile => ?_
  · rintro ⟨config, rfl, h⟩
    exact .profile hconfig h
  refine Work.endsIn_read (sourceFiles_ends settings target) .target fun files hfiles htarget => ?_
  cases files with
  | nil => exact Work.endsIn_fail _
  | cons first rest =>
    refine (install_yields _ _ _).bind fun version => ?_
    refine Work.endsIn_read (.of_lift Project.fails_compilerSettings_iff)
      (.settings hconfig hsettings) fun given hgiven hflawed => ?_
    refine (run_endsIn _ _ _).bind (fun _ h => nomatch h) fun compiled hcompiled => ?_
    cases hcompiled
    refine Work.endsIn_ofDefect (fails_collect_iff.trans ⟨.output, ?_⟩)
    rintro (h | ⟨hconfig', h⟩ | h | ⟨hconfig', hsettings', h⟩ | h)
    · exact absurd h hreadable
    · cases hconfig.symm.trans hconfig'
      exact absurd ⟨_, rfl, h⟩ hprofile
    · exact absurd h htarget
    · cases hconfig.symm.trans hconfig'
      cases hsettings.symm.trans hsettings'
      exact absurd h hflawed
    · exact h

end Solc

/-- What the part of a build is flawed by that compiles a project. -/
def Toolchain.Flawed (tool : Toolchain) (t : Tree) (compiler : Compiler) (profile target : Document) :
    Prop :=
  match tool with
  | .forge => Forge.Flawed t profile
  | .solc => Solc.Flawed t compiler.output profile target

theorem Toolchain.compile_ends (tool : Toolchain) (profile target : Document) (limit : Option Limit) :
    (tool.compile t cloneDirectory profile [target] limit).EndsIn t compiler
      (Ends (tool.Flawed t compiler profile target)) := by
  cases tool with
  | forge => exact Forge.compile_ends _ _
  | solc => exact Solc.compile_ends _ _

/-- What a build is flawed by, in the repository, the compiler's output or the order itself. -/
inductive Flawed (tool : Toolchain) (order : Order) (t : Tree) (compiler : Compiler) : Prop
  /-- There is nothing to build for what names no contract. -/
  | order {given : Document} (h : order.contract = .other given)
  | compilation {target : Document} (htarget : order.contract.path = .ok target)
      (h : tool.Flawed t compiler order.profile target)
  /-- A path that is no text has no file name to look for. -/
  | path {target : Document} {output : Output} (htarget : order.contract.path = .ok target)
      (houtput : tool.Leaves t compiler order.profile output)
      (hnone : List.find? (fun e => e.1 == order.contract.text) output = none)
      (h : ∀ s, target ≠ .text s)
  | entry {output : Output} {key : String} {entry : Document}
      (houtput : tool.Leaves t compiler order.profile output)
      (hentry : Output.entryOf? output order.contract = .ok (some (key, entry)))
      (h : FlawedEntry entry)

theorem fails_path_iff {r : ContractReference} : r.path.Fails ↔ ∃ given, r = .other given := by
  cases r <;> simp [ContractReference.path]

theorem fails_entryOf?_iff {output : Output} {r : ContractReference} {target : Document}
    (htarget : r.path = .ok target) : (Output.entryOf? output r).Fails ↔
      List.find? (fun e => e.1 == r.text) output = none ∧ ∀ s, target ≠ .text s := by
  cases r with
  | contract c =>
    cases htarget
    exact iff_of_false (not_fails_ok _) fun h => h.2 _ rfl
  | other d => cases htarget
  | pair path name =>
    cases htarget
    cases hfind : List.find? (fun e => e.1 == (ContractReference.pair target name).text) output with
    | some e =>
      simp only [Output.entryOf?, hfind]
      exact iff_of_false (not_fails_ok _) (by simp)
    | none =>
      simp only [Output.entryOf?, hfind]
      cases target with
      | text s => exact iff_of_false (not_fails_ok _) (by simp)
      | _ => exact iff_of_true (fails_error _) (by simp)

/-- A tool leaves one output only. -/
theorem Toolchain.Leaves.unique {tool : Toolchain} {profile : Document} {output output' : Output}
    (h : tool.Leaves t compiler profile output) (h' : tool.Leaves t compiler profile output') :
    output = output' := by
  cases tool with
  | forge =>
    obtain ⟨config, settings, directory, hconfig, hsettings, hdirectory, hcollect⟩ := h
    obtain ⟨config', settings', directory', hconfig', hsettings', hdirectory', hcollect'⟩ := h'
    cases hconfig.symm.trans hconfig'
    cases hsettings.symm.trans hsettings'
    cases hdirectory.symm.trans hdirectory'
    exact Except.ok.inj (hcollect.symm.trans hcollect')
  | solc => exact Except.ok.inj (h.2.symm.trans h'.2)

theorem buildIn_ends (tool : Toolchain) (order : Order) (timeout : Option Binary64)
    (started : Seconds) :
    (buildIn tool order timeout started).EndsIn t compiler (Ends (Flawed tool order t compiler)) := by
  refine (timeLeft_yields _ _).bind fun _ => (Checkout.clone_yields _ _ _).bind fun _ => ?_
  refine (timeLeft_yields _ _).bind fun _ => (Checkout.checkout_yields _ _ _).bind fun _ => ?_
  refine Work.endsIn_read (.of_lift fails_path_iff) (fun ⟨_, h⟩ => .order h)
    fun target htarget hnamed => ?_
  replace htarget := mapError_eq_ok_iff.mp htarget
  refine (timeLeft_yields _ _).bind fun limit => Work.endsIn_get_bind fun w hw => ?_
  rw [hw.repository]
  -- That compiling ends as it should does not say what output it leaves. Its plan does.
  have hleaves : (tool.compile t cloneDirectory order.profile [target] limit).EndsIn t compiler
      fun r => ∀ output, r = .ok output → tool.Leaves t compiler order.profile output :=
    Work.endsIn_of_obeys (Q := fun _ compiler => tool.Leaves t compiler order.profile)
      fun _ => Toolchain.compile_obeys tool t order.profile [target] limit
  refine ((Toolchain.compile_ends tool order.profile target limit).and hleaves).bind
    (fun d h => .defect (.compilation htarget h.1.flawed)) fun output houtput => ?_
  have hsound := houtput.1.not_flawed
  have hleft := houtput.2 output rfl
  refine Work.endsIn_read (.of_lift (fails_entryOf?_iff htarget)) (fun h => .path htarget hleft h.1 h.2)
    fun found? hfound hsearched => ?_
  cases found? with
  | none => exact Work.endsIn_fail _
  | some found =>
    replace hfound := mapError_eq_ok_iff.mp hfound
    refine Work.endsIn_of_ends ((readEntry_ends _ _).congr ⟨.entry hleft hfound, ?_⟩)
    rintro (h | ⟨htarget', h⟩ | ⟨htarget', hleft', hnone, h⟩ | ⟨hleft', hfound', h⟩)
    · exact absurd ⟨_, h⟩ hnamed
    · cases htarget.symm.trans htarget'
      exact absurd h hsound
    · cases htarget.symm.trans htarget'
      cases hleft.unique hleft'
      exact absurd ⟨hnone, h⟩ hsearched
    · cases hleft.unique hleft'
      cases hfound.symm.trans hfound'
      exact h

theorem build_endsIn (tool : Toolchain) (order : Order) (timeout : Option Binary64) :
    (build tool order timeout).EndsIn t compiler (Ends (Flawed tool order t compiler)) := by
  refine Work.endsIn_get_bind fun w _ => ?_
  exact Work.endsIn_withScratch (buildIn_ends _ _ _ _)

end Build

/-- What a request asks to be built. -/
def Request.order (r : Request) : Build.Order := ⟨r.repository, r.commit, r.contract, r.profile⟩

/-- A verification has no report for a build's fault, or for the defect that the build ended with. -/
theorem Verifier.build_error_cases {v : Verifier} {r : Request} {w : Build.Workshop} {e : Failure}
    (h : (v.build r w).1 = .error e) :
    (∃ f, e = .build f) ∨ ∃ d, e = .defect d ∧
      ((Build.build v.toolchain r.order (some v.settings.deadline)).run.run w).1 =
        .error (.defect d) := by
  cases hrun : (Build.build v.toolchain r.order (some v.settings.deadline)).run.run w with
  | mk result after =>
    rw [Request.order] at hrun
    simp only [build, hrun] at h
    split at h
    · cases h
      exact .inl ⟨_, rfl⟩
    · cases result with
      | ok a => cases h
      | error e =>
        cases h
        cases e with
        | fault f => exact .inl ⟨f, rfl⟩
        | defect d => exact .inr ⟨d, rfl, rfl⟩

/-- Where a request is not refused, a build that fails is what its verification reports. -/
theorem Verifier.result_of_build {v : Verifier} {r : Request} {world : World} {chains : List Int}
    {e : Failure} (hchains : Chain.Survey.targets v.settings r.chain = .ok chains)
    (h : (v.build r world.workshop).1 = .error e) : (v.verify r world).result = .error e := by
  unfold verify
  rw [hchains]
  dsimp only
  rw [h]

namespace Build

open Tool Except

/-- A build whose programs are ordinary comes to an artifact or a fault, unless something is flawed that
it reads, and then it comes to no artifact. A verification reports the fault, but for the same flaws.
The files of the project are texts, and a path of its settings that leads above the clone finds
nothing. -/
theorem build_ends {w : Workshop} (hgit : ∀ s ∈ w.git, s.IsOrdinary)
    (hforge : ∀ s ∈ w.forge, s.IsOrdinary) :
    (∀ tool order timeout, Ends (Flawed tool order w.repository w.compiler)
      ((build tool order timeout).run.run w).1) ∧
    ∀ (v : Verifier) (r : Request) (outside : Outside) (chains : List Int) (e : Attest.Failure),
      Chain.Survey.targets v.settings r.chain = .ok chains → (v.build r w).1 = .error e →
        (v.verify r ⟨w, outside⟩).result = .error e ∧ ((∃ f, e = .build f) ∨
          (∃ d, e = .defect d) ∧ Flawed v.toolchain r.order w.repository w.compiler) := by
  have hbuild (tool : Toolchain) (order : Order) (timeout : Option Binary64) :
      Ends (Flawed tool order w.repository w.compiler) ((build tool order timeout).run.run w).1 := by
    rcases (build_endsIn tool order timeout w ⟨rfl, rfl, hgit, hforge⟩).2 with ⟨f, h⟩ | h
    · rw [h]
      exact .fault f
    · exact h
  refine ⟨hbuild, fun v r outside chains e hchains he => ⟨Verifier.result_of_build hchains he, ?_⟩⟩
  rcases Verifier.build_error_cases he with hfault | ⟨d, rfl, hdefect⟩
  · exact .inl hfault
  · have hends := hbuild v.toolchain r.order (some v.settings.deadline)
    rw [hdefect] at hends
    exact .inr ⟨⟨d, rfl⟩, hends.flawed⟩

/-- A project in which forge leaves one artifact. -/
def Workshop.leaving (artifact : String) : Workshop :=
  { repository := .ofFiles
      [("foundry.toml", "[profile.default]\n"), ("out/A.json", artifact)] }

/-- An artifact with code and a target, and nothing else. -/
def plainArtifact : String :=
  "\x7b\"bytecode\": \x7b\"object\": \"0x60\"\x7d, \"metadata\": \x7b\"settings\": " ++
    "\x7b\"compilationTarget\": \x7b\"src/A.sol\": \"A\"\x7d\x7d\x7d\x7d"

/-- An artifact with its code where an object is looked for. -/
def foreignArtifact : String := "\x7b\"bytecode\": \"0x60\"\x7d"

theorem build_ends_plainArtifact :
    (∀ s ∈ (Workshop.leaving plainArtifact).git, s.IsOrdinary) ∧
      (∀ s ∈ (Workshop.leaving plainArtifact).forge, s.IsOrdinary) ∧
      (∃ a, ((build .forge .sample none).run.run (.leaving plainArtifact)).1 = .ok a) ∧
      ¬Flawed .forge .sample (Workshop.leaving plainArtifact).repository
        (Workshop.leaving plainArtifact).compiler := by
  have hgit : ∀ s ∈ (Workshop.leaving plainArtifact).git, s.IsOrdinary := List.forall_mem_nil _
  have hforge : ∀ s ∈ (Workshop.leaving plainArtifact).forge, s.IsOrdinary := List.forall_mem_nil _
  obtain ⟨a, ha⟩ := Option.isSome_iff_exists.mp (by decide +kernel :
    ((build .forge .sample none).run.run (.leaving plainArtifact)).1.toOption.isSome = true)
  have hok := eq_ok_of_toOption ha
  refine ⟨hgit, hforge, ⟨a, hok⟩, ?_⟩
  have hends := (build_ends hgit hforge).1 .forge .sample none
  rw [hok] at hends
  exact hends.not_flawed

/-- A foreign artifact ends a build with a defect, although all its programs do their work. -/
theorem foreign_artifact_breaks_build :
    (∀ s ∈ (Workshop.leaving foreignArtifact).git ++ (Workshop.leaving foreignArtifact).forge,
      s.IsOrdinary) ∧
    ((build .forge .sample none).run.run (.leaving foreignArtifact)).1 =
      .error (.defect (.lacksMember "str" "get")) :=
  ⟨List.forall_mem_nil _, by decide +kernel⟩

end Build

end Attest
