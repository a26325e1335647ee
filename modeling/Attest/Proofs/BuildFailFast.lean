import Attest.Proofs.BuildAlike
import Attest.Proofs.BuildLimits
import Attest.Proofs.Outcome

/-! # Builds stop at the first command that fails

The commands of a build follow a plan. Each of them runs only when those before it succeeded, and the
stage of the first that fails is the one that the build is reported to have failed at. -/

namespace Attest

namespace Tool.Outcome

/-- The program came to its end and found nothing wrong. -/
inductive Succeeded : Outcome → Prop
  | exited (stdout stderr : String) : Succeeded (.exited 0 stdout stderr)

/-- The program found something wrong, or could not be run to its end. -/
inductive Failed : Outcome → Prop
  | exited {code : Int} (h : code ≠ 0) (stdout stderr : String) : Failed (.exited code stdout stderr)
  | unavailable (details : String) : Failed (.unavailable details)

theorem Succeeded.not_failed {o : Outcome} (h : o.Succeeded) : ¬ o.Failed := by
  intro hfailed
  cases h with
  | exited stdout stderr =>
    cases hfailed with
    | exited hcode => exact hcode rfl

end Tool.Outcome

namespace Build

open Tool

/-- A command of a build, and the stage that it is part of. -/
structure Planned where
  arguments : List String
  stage : Stage

/-- A command that was run, and what came of it. -/
structure Trial where
  command : Command
  outcome : Outcome

namespace Toolchain

/-- The commands that compile a project. The compiler's own interface runs none. -/
def compilation : Toolchain → List Planned
  | forge => [⟨["forge", "build", "--skip", "test", "script"], .compile⟩]
  | solc => []

/-- The commands that a build runs where nothing stops it. -/
def plan (tool : Toolchain) (order : Order) : List Planned :=
  [⟨["git", "clone", "--quiet", order.repository.plain, cloneDirectory], .clone⟩,
    ⟨["git", "checkout", "--quiet", order.commit], .checkout⟩,
    ⟨Checkout.updateArguments, .clone⟩] ++ tool.compilation

end Toolchain

example (order : Order) : (Toolchain.forge.plan order).map (·.stage.label) =
    ["clone", "checkout", "clone", "compile"] := rfl

namespace Workshop

/-- The commands among the acts, and what comes of each when the acts are done one after the other. -/
def trials : Workshop → List Act → List Trial
  | _, [] => []
  | w, .ran c :: acts => ⟨c, ((w.answer c).perform c).2⟩ :: trials (w.act (.ran c)) acts
  | w, a :: acts => trials (w.act a) acts

variable {w : Workshop}

theorem trials_append (xs ys : List Act) :
    w.trials (xs ++ ys) = w.trials xs ++ (w.replay xs).trials ys := by
  induction xs generalizing w with
  | nil => rfl
  | cons x xs ih =>
    cases x with
    | ran c => exact congrArg _ ih
    | called call => exact ih
    | waited span => exact ih

theorem trials_scratch (acts : List Act) (n : Nat) :
    { w with scratch := n }.trials acts = w.trials acts := by
  induction acts generalizing w with
  | nil => rfl
  | cons a acts ih =>
    cases a with
    | ran c => exact congrArg (⟨c, ((w.answer c).perform c).2⟩ :: ·) (ih (w := w.act (.ran c)))
    | called call => exact ih (w := w.act (.called call))
    | waited span => exact ih (w := w.act (.waited span))

/-- The trials are of the commands that a workshop has on record. -/
theorem commands_replay (acts : List Act) :
    (w.replay acts).commands = w.commands ++ (w.trials acts).map Trial.command := by
  induction acts generalizing w with
  | nil => simp [replay, trials]
  | cons a acts ih =>
    rw [replay, List.foldl_cons]
    refine ih.trans ?_
    cases a with
    | ran c => exact List.append_assoc _ _ _
    | called call => rfl
    | waited span => rfl

theorem repository_replay (acts : List Act) : (w.replay acts).repository = w.repository := by
  induction acts generalizing w with
  | nil => rfl
  | cons a acts ih =>
    rw [replay, List.foldl_cons]
    refine ih.trans ?_
    cases a <;> rfl

theorem compiler_replay (acts : List Act) : (w.replay acts).compiler = w.compiler := by
  induction acts generalizing w with
  | nil => rfl
  | cons a acts ih =>
    rw [replay, List.foldl_cons]
    refine ih.trans ?_
    cases a <;> rfl

end Workshop

/-- How trials go by a plan: all of it succeeds and comes to a result with a property, or something
else stops it on the way, or the first command that does not succeed does. -/
inductive Follows (Q : α → Prop) : List Planned → List Trial → Except Failure α → Prop
  | ended {a : α} (h : Q a) : Follows Q [] [] (.ok a)
  | stopped {plan : List Planned} (e : Failure) : Follows Q plan [] (.error e)
  | failed {p : Planned} {plan : List Planned} {t : Trial} {f : Fault}
      (hplanned : t.command.arguments = p.arguments) (hfailed : t.outcome.Failed)
      (hstage : f.stage = p.stage) : Follows Q (p :: plan) [t] (.error (.fault f))
  | broken {p : Planned} {plan : List Planned} {t : Trial} {d : Defect}
      (hplanned : t.command.arguments = p.arguments) (hbroken : t.outcome = .broken d) :
      Follows Q (p :: plan) [t] (.error (.defect d))
  | passed {p : Planned} {plan : List Planned} {t : Trial} {trials : List Trial}
      {r : Except Failure α} (hplanned : t.command.arguments = p.arguments)
      (hsucceeded : t.outcome.Succeeded) (h : Follows Q plan trials r) :
      Follows Q (p :: plan) (t :: trials) r

namespace Follows

variable {P : α → Prop} {Q : β → Prop} {plan rest : List Planned} {trials more : List Trial}

theorem append {a : α} {r : Except Failure β} (h : Follows P plan trials (.ok a))
    (hrest : P a → Follows Q rest more r) : Follows Q (plan ++ rest) (trials ++ more) r := by
  generalize hok : (Except.ok a : Except Failure α) = s at h
  induction h with
  | ended h =>
    cases hok
    exact hrest h
  | stopped e => cases hok
  | failed hplanned hfailed hstage => cases hok
  | broken hplanned hbroken => cases hok
  | passed hplanned hsucceeded _ ih => exact .passed hplanned hsucceeded (ih hok)

/-- A plan that came to an error is done with, whatever else was planned. -/
theorem of_error {e : Failure} (h : Follows P plan trials (.error e)) :
    Follows Q (plan ++ rest) trials (.error e) := by
  generalize herror : (Except.error e : Except Failure α) = s at h
  induction h with
  | ended h => cases herror
  | stopped e' =>
    cases herror
    exact .stopped e
  | failed hplanned hfailed hstage =>
    cases herror
    exact .failed hplanned hfailed hstage
  | broken hplanned hbroken =>
    cases herror
    exact .broken hplanned hbroken
  | passed hplanned hsucceeded _ ih => exact .passed hplanned hsucceeded (ih herror)

variable {r : Except Failure β}

theorem arguments_isPrefix (h : Follows Q plan trials r) :
    trials.map (·.command.arguments) <+: plan.map Planned.arguments := by
  induction h with
  | ended h => exact List.prefix_rfl
  | stopped e => exact List.nil_prefix
  | failed hplanned => exact ⟨_, congrArg (· :: _) hplanned⟩
  | broken hplanned => exact ⟨_, congrArg (· :: _) hplanned⟩
  | passed hplanned _ _ ih =>
    rw [List.map_cons, List.map_cons, hplanned]
    exact (List.prefix_cons_inj _).mpr ih

/-- What is followed by another command succeeded. -/
theorem succeeded (h : Follows Q plan trials r) {i : Nat} {t : Trial} (ht : trials[i]? = some t)
    (hnext : i + 1 < trials.length) : t.outcome.Succeeded := by
  induction h generalizing i with
  | ended h => cases ht
  | stopped e => cases ht
  | failed => exact absurd hnext (by simp)
  | broken => exact absurd hnext (by simp)
  | passed hplanned hsucceeded _ ih =>
    cases i with
    | zero =>
      cases ht
      exact hsucceeded
    | succ i => exact ih ht (Nat.lt_of_succ_lt_succ hnext)

/-- The stage of the command that fails is the stage of the fault. -/
theorem exists_fault (h : Follows Q plan trials r) {i : Nat} {t : Trial} {p : Planned}
    (ht : trials[i]? = some t) (hp : plan[i]? = some p) (hfailed : t.outcome.Failed) :
    ∃ f, r = .error (.fault f) ∧ f.stage = p.stage := by
  induction h generalizing i with
  | ended h => cases ht
  | stopped e => cases ht
  | failed hplanned hcomes hstage =>
    cases i with
    | zero =>
      cases ht
      cases hp
      exact ⟨_, rfl, hstage⟩
    | succ i => cases ht
  | broken hplanned hbroken =>
    cases i with
    | zero =>
      cases ht
      rw [hbroken] at hfailed
      cases hfailed
    | succ i => cases ht
  | passed hplanned hsucceeded _ ih =>
    cases i with
    | zero =>
      cases ht
      exact absurd hfailed hsucceeded.not_failed
    | succ i => exact ih ht hp

/-- Only a plan that succeeded as a whole comes to a result. -/
theorem of_ok {b : β} (h : Follows Q plan trials (.ok b)) :
    trials.length = plan.length ∧ (∀ t ∈ trials, t.outcome.Succeeded) ∧ Q b := by
  generalize hok : (Except.ok b : Except Failure β) = s at h
  induction h with
  | ended h =>
    cases hok
    exact ⟨rfl, by simp, h⟩
  | stopped e => cases hok
  | failed hplanned hfailed hstage => cases hok
  | broken hplanned hbroken => cases hok
  | passed hplanned hsucceeded _ ih =>
    obtain ⟨hlength, hall, hQ⟩ := ih hok
    exact ⟨congrArg Nat.succ hlength, List.forall_mem_cons.mpr ⟨hsucceeded, hall⟩, hQ⟩

end Follows

/-- Acts that wait for nothing but commands and the compiler. -/
def Workshop.Allows (w : Workshop) (acts : List Act) : Prop :=
  ∀ span, .waited span ∈ acts → span = w.compiler.delay

/-- Work that does nothing but what some acts do, and whose commands go by a plan. -/
def Work.Obeys (x : Work α) (w : Workshop) (plan : List Planned) (Q : α → Prop) : Prop :=
  ∃ acts, (x.run.run w).2 = w.replay acts ∧ w.Allows acts ∧
    Follows Q plan (w.trials acts) (x.run.run w).1

namespace Work

variable {w : Workshop} {plan rest : List Planned} {P : α → Prop} {Q : β → Prop}

theorem obeys_error {x : Work α} {e : Failure} (h : x.run.run w = (.error e, w)) :
    x.Obeys w plan P :=
  ⟨[], by rw [h]; rfl, nofun, by rw [h]; exact .stopped e⟩

theorem obeys_ok {x : Work α} {a : α} (h : x.run.run w = (.ok a, w)) (hP : P a) :
    x.Obeys w [] P :=
  ⟨[], by rw [h]; rfl, nofun, by rw [h]; exact .ended hP⟩

theorem obeys_ofExcept {r : Except Failure α} (h : ∀ a, r = .ok a → P a) :
    (ofExcept r).Obeys w [] P := by
  cases r with
  | error e => exact obeys_error rfl
  | ok a => exact obeys_ok rfl (h a rfl)

theorem obeys_ofDefect {r : Except Defect α} (h : ∀ a, r = .ok a → P a) :
    (ofDefect r).Obeys w [] P :=
  obeys_ofExcept fun a ha => h a (Except.mapError_eq_ok_iff.mp ha)

theorem obeys_get_bind {f : Workshop → Work α} (h : (f w).Obeys w plan P) :
    ((get : Work Workshop) >>= f).Obeys w plan P := by
  unfold Obeys
  rw [run_bind]
  exact h

theorem obeys_callCompiler (call : List Document) : (callCompiler call).Obeys w [] fun _ => True :=
  ⟨[.called call], rfl, by simp [Workshop.Allows], .ended trivial⟩

theorem obeys_pass {span : Seconds} (hspan : span = w.compiler.delay) :
    (pass span).Obeys w [] fun _ => True :=
  ⟨[.waited span], rfl, by simp [Workshop.Allows, hspan], .ended trivial⟩

theorem obeys_fail (f : Fault) : (fail f : Work α).Obeys w plan P := obeys_error rfl

theorem Obeys.bind {x : Work α} {f : α → Work β} (hx : x.Obeys w plan P)
    (hf : ∀ a acts, P a → (f a).Obeys (w.replay acts) rest Q) :
    (x >>= f).Obeys w (plan ++ rest) Q := by
  obtain ⟨acts, hleft, hallows, hfollows⟩ := hx
  unfold Obeys
  rw [run_bind]
  cases hr : x.run.run w with
  | mk r w' =>
    rw [hr] at hleft hfollows
    cases r with
    | error e => exact ⟨acts, hleft, hallows, hfollows.of_error⟩
    | ok a =>
      obtain ⟨more, hmore, hmoreAllows, hrest⟩ := hf a acts hfollows.of_ok.2.2
      subst hleft
      refine ⟨acts ++ more, ?_, fun span hspan => ?_, ?_⟩
      · rw [Workshop.replay_append]
        exact hmore
      · rcases List.mem_append.mp hspan with hspan | hspan
        · exact hallows span hspan
        · rw [hmoreAllows span hspan, Workshop.compiler_replay]
      · rw [Workshop.trials_append]
        exact hfollows.append fun _ => hrest

/-- Work that is followed by none. -/
theorem Obeys.bind_still {x : Work α} {f : α → Work β} (hx : x.Obeys w plan P)
    (hf : ∀ a acts, P a → (f a).Obeys (w.replay acts) [] Q) : (x >>= f).Obeys w plan Q := by
  have h := hx.bind hf
  rwa [List.append_nil] at h

/-- Scratch directories are no concern of a plan, and the one that there was more is gone. -/
theorem Obeys.withScratch {x : Work α} (hx : x.Obeys { w with scratch := w.scratch + 1 } plan P) :
    (withScratch x).Obeys w plan P := by
  obtain ⟨acts, hleft, hallows, hfollows⟩ := hx
  rw [Workshop.trials_scratch] at hfollows
  refine ⟨acts, ?_, hallows, hfollows⟩
  rw [run_withScratch, hleft, Workshop.replay_scratch]
  simp only [Nat.add_sub_cancel]
  rw [← Workshop.scratch_replay (w := w) acts]

/-- Work that runs a command and gives up, with a fault of the command's stage, unless it succeeds. -/
theorem obeys_ran {x : Work Outcome} {f : Outcome → Work β} {c : Command} {stage : Stage}
    (hx : x.run.run w = (.ok ((w.answer c).perform c).2, w.act (.ran c)))
    (hfailed : ∀ o, o.Failed → ∃ fault, fault.stage = stage ∧ f o = fail fault)
    (hbroken : ∀ d, f (.broken d) = throw (.defect d))
    (hsucceeded : ∀ stdout stderr, (f (.exited 0 stdout stderr)).Obeys (w.act (.ran c)) rest Q) :
    (x >>= f).Obeys w (⟨c.arguments, stage⟩ :: rest) Q := by
  have stops (o : Outcome) (ho : o.Failed) (houtcome : ((w.answer c).perform c).2 = o) :
      (x >>= f).Obeys w (⟨c.arguments, stage⟩ :: rest) Q := by
    obtain ⟨fault, hstage, hf⟩ := hfailed o ho
    have hrun : (x >>= f).run.run w = (.error (.fault fault), w.act (.ran c)) := by
      rw [run_bind, hx, houtcome]
      exact congrArg (fun y : Work β => y.run.run (w.act (.ran c))) hf
    refine ⟨[.ran c], congrArg Prod.snd hrun, by simp [Workshop.Allows], ?_⟩
    rw [hrun]
    exact .failed rfl (houtcome.symm ▸ ho) hstage
  cases houtcome : ((w.answer c).perform c).2 with
  | unavailable details => exact stops _ (.unavailable details) houtcome
  | broken d =>
    have hrun : (x >>= f).run.run w = (.error (.defect d), w.act (.ran c)) := by
      rw [run_bind, hx, houtcome]
      exact congrArg (fun y : Work β => y.run.run (w.act (.ran c))) (hbroken d)
    refine ⟨[.ran c], congrArg Prod.snd hrun, by simp [Workshop.Allows], ?_⟩
    rw [hrun]
    exact .broken rfl houtcome
  | exited code stdout stderr =>
    by_cases hcode : code = 0
    · subst hcode
      obtain ⟨acts, hleft, hallows, hfollows⟩ := hsucceeded stdout stderr
      unfold Obeys
      rw [run_bind, hx, houtcome]
      refine ⟨.ran c :: acts, hleft, fun span hspan => ?_, .passed rfl ?_ hfollows⟩
      · exact hallows span ((List.mem_cons.mp hspan).resolve_left nofun)
      rw [houtcome]
      exact .exited stdout stderr
    · exact stops _ (.exited hcode stdout stderr) houtcome

end Work

section

variable {w : Workshop}

theorem timeLeft_obeys (timeout : Option Binary64) (started : Seconds) :
    (timeLeft timeout started).Obeys w [] fun _ => True := by
  obtain ⟨r, hr⟩ := timeLeft_still timeout started w
  cases r with
  | error e => exact Work.obeys_error hr
  | ok limit => exact Work.obeys_ok hr trivial

namespace Checkout

theorem run_obeys {c : Command} (hc : c.arguments.head? = some "git")
    {unavailable failed : String → Fault} {stage : Stage}
    (hunavailable : ∀ details, (unavailable details).stage = stage)
    (hfailed : ∀ details, (failed details).stage = stage) :
    (run c unavailable failed).Obeys w [⟨c.arguments, stage⟩] fun _ => True := by
  refine Work.obeys_ran (Work.run_runGit hc) ?_ (fun d => rfl) fun stdout stderr =>
    Work.obeys_ok (a := ()) rfl trivial
  intro o ho
  cases ho with
  | exited hcode stdout stderr => exact ⟨_, hfailed _, if_pos hcode⟩
  | unavailable details => exact ⟨_, hunavailable _, rfl⟩

theorem clone_obeys (url directory : String) (limit : Option Limit) :
    (clone longest url directory limit).Obeys w
      [⟨["git", "clone", "--quiet", url, directory], .clone⟩] fun _ => True :=
  run_obeys rfl (fun _ => rfl) (fun _ => rfl)

theorem checkout_obeys (directory commit : String) (limit : Option Limit) :
    (checkout longest directory commit limit).Obeys w
      [⟨["git", "checkout", "--quiet", commit], .checkout⟩, ⟨updateArguments, .clone⟩]
      fun _ => True := by
  have hcheckout : (run ⟨["git", "checkout", "--quiet", commit], limitFor longest limit,
      some directory, none⟩ (.checkout commit) (.unknownCommit commit)).Obeys w
      [⟨["git", "checkout", "--quiet", commit], .checkout⟩] fun _ => True :=
    run_obeys rfl (fun _ => rfl) (fun _ => rfl)
  refine hcheckout.bind fun _ _ _ => ?_
  exact run_obeys rfl (fun _ => rfl) (fun _ => rfl)

end Checkout

/-- The output of a tool that did its work in a repository, where the compiler gave what it gave. -/
def Toolchain.Leaves (tool : Toolchain) (t : Tree) (compiler : Compiler) (profile : Document)
    (output : Output) : Prop :=
  match tool with
  | .forge => ∃ config settings directory,
      Project.readConfig t = .ok (some config) ∧
      Project.resolveProfile config profile = .ok settings ∧
      Forge.outputDirectory settings = .ok directory ∧
      Forge.collect t (Path.ofText cloneDirectory) directory = .ok output
  | .solc => compiler.refusal = none ∧ Solc.collect compiler.output = .ok output

theorem Forge.compile_obeys (t : Tree) (compiler : Compiler) (profile : Document)
    (limit : Option Limit) :
    (Forge.compile longest t cloneDirectory profile limit).Obeys w
      Toolchain.forge.compilation
      (Toolchain.forge.Leaves t compiler profile) := by
  refine (Work.obeys_ofExcept fun _ h => h).bind fun config? _ hconfig => ?_
  cases config? with
  | none => exact Work.obeys_fail _
  | some config =>
    refine (Work.obeys_ofExcept fun _ h => h).bind fun settings _ hsettings => ?_
    refine Work.obeys_ran (Work.run_runForge (by simp)) ?_ (fun d => rfl) fun stdout stderr => ?_
    · intro o ho
      cases ho with
      | exited hcode stdout stderr => exact ⟨_, rfl, if_pos hcode⟩
      | unavailable details => exact ⟨_, rfl, rfl⟩
    · refine Work.obeys_ofDefect fun output houtput => ?_
      obtain ⟨place, hplace, hcollect⟩ := Except.bind_eq_ok_iff.mp houtput
      exact ⟨config, settings, place, hconfig, hsettings, hplace, hcollect⟩

namespace Solc

theorem install_obeys (settings : Members) (file source : String) :
    (install settings file source).Obeys w [] fun _ => True := by
  refine Work.obeys_get_bind ?_
  dsimp only
  split
  · refine (Work.obeys_callCompiler _).bind fun _ _ _ => ?_
    split
    · exact Work.obeys_fail _
    · exact Work.obeys_ok rfl trivial
  · split
    · exact Work.obeys_fail _
    · refine (Work.obeys_callCompiler _).bind fun _ _ _ => ?_
      split
      · exact Work.obeys_fail _
      · exact Work.obeys_ok rfl trivial

theorem run_obeys (input : Document) (directory : String) (version : Document) :
    (run input directory version).Obeys w []
      fun output => w.compiler.refusal = none ∧ w.compiler.output = output := by
  refine Work.obeys_get_bind ?_
  refine (Work.obeys_callCompiler _).bind fun _ _ _ => ?_
  refine (Work.obeys_pass (by simp only [Workshop.compiler_replay])).bind fun _ _ _ => ?_
  split
  · exact Work.obeys_fail _
  · next hrefusal => exact Work.obeys_ok rfl ⟨hrefusal, rfl⟩

theorem compile_obeys (t : Tree) (directory : String) (profile : Document)
    (targets : List Document) :
    (compile t directory profile targets).Obeys w []
      (Toolchain.solc.Leaves t w.compiler profile) := by
  refine (Work.obeys_ofExcept fun _ h => h).bind fun config? _ _ => ?_
  split
  · exact Work.obeys_error rfl
  refine (Work.obeys_ofExcept fun _ h => h).bind fun profileSettings _ _ => ?_
  refine (Work.obeys_ofExcept fun _ h => h).bind fun files _ _ => ?_
  cases files with
  | nil => exact Work.obeys_fail _
  | cons first rest =>
    refine (install_obeys _ _ _).bind fun version _ _ => ?_
    refine (Work.obeys_ofDefect fun _ h => h).bind fun settings _ _ => ?_
    refine (run_obeys _ _ _).bind fun compiled _ hcompiled => ?_
    refine Work.obeys_ofDefect fun output houtput => ?_
    simp only [Workshop.compiler_replay] at hcompiled
    obtain ⟨hrefusal, rfl⟩ := hcompiled
    exact ⟨hrefusal, houtput⟩

end Solc

/-- The contract that an order asks for, as a tool left it. -/
def Order.FoundBy (order : Order) (tool : Toolchain) (w : Workshop) (a : Artifact) : Prop :=
  ∃ output key entry, tool.Leaves w.repository w.compiler order.profile output ∧
    Output.entryOf? output order.contract = .ok (some (key, entry)) ∧
    readEntry order.contract entry = .ok a

theorem Toolchain.compile_obeys (tool : Toolchain) (t : Tree) (profile : Document)
    (targets : List Document) (limit : Option Limit) :
    (tool.compile t cloneDirectory profile targets limit).Obeys w tool.compilation
      (tool.Leaves t w.compiler profile) := by
  cases tool with
  | forge => exact Forge.compile_obeys _ _ _ _
  | solc => exact Solc.compile_obeys _ _ _ _

theorem buildIn_obeys (tool : Toolchain) (order : Order) (timeout : Option Binary64)
    (started : Seconds) (w : Workshop) :
    (buildIn tool order timeout started).Obeys w (tool.plan order) (order.FoundBy tool w) := by
  refine (timeLeft_obeys _ _).bind fun _ _ _ => ?_
  refine (Checkout.clone_obeys _ _ _).bind fun _ _ _ => ?_
  refine (timeLeft_obeys _ _).bind fun _ _ _ => ?_
  refine (Checkout.checkout_obeys _ _ _).bind fun _ _ _ => ?_
  refine (Work.obeys_ofDefect fun _ h => h).bind fun target _ _ => ?_
  refine (timeLeft_obeys _ _).bind fun limit _ _ => ?_
  refine Work.obeys_get_bind ?_
  refine (Toolchain.compile_obeys tool _ _ _ _).bind_still fun output _ houtput => ?_
  refine (Work.obeys_ofDefect fun _ h => h).bind fun found? _ hfound => ?_
  simp only [Workshop.compiler_replay, Workshop.repository_replay] at houtput
  cases found? with
  | none => exact Work.obeys_fail _
  | some found => exact Work.obeys_ofExcept fun a ha => ⟨output, found.1, found.2, houtput, hfound, ha⟩

theorem build_obeys (tool : Toolchain) (order : Order) (timeout : Option Binary64) (w : Workshop) :
    (build tool order timeout).Obeys w (tool.plan order) (order.FoundBy tool w) :=
  Work.obeys_get_bind (buildIn_obeys _ _ _ _ _).withScratch

/-- What holds of a build however it ends: with which result, in which workshop and after which
trials. -/
structure FailFast (tool : Toolchain) (order : Order) (w : Workshop) (r : Except Failure Artifact)
    (left : Workshop) (trials : List Trial) : Prop where
  /-- The trials are of all the commands that were run. -/
  commands : left.commands = w.commands ++ trials.map Trial.command
  planned : trials.map (·.command.arguments) <+: (tool.plan order).map Planned.arguments
  /-- No command follows one that did not succeed. -/
  succeeded : ∀ (i : Nat) (t : Trial), trials[i]? = some t → i + 1 < trials.length →
    t.outcome.Succeeded
  /-- The fault that is reported is of the stage of the command that failed. -/
  failed : ∀ (i : Nat) (t : Trial) (p : Planned), trials[i]? = some t →
    (tool.plan order)[i]? = some p → t.outcome.Failed → ∃ f, r = .error (.fault f) ∧ f.stage = p.stage
  built : ∀ a, r = .ok a → trials.length = (tool.plan order).length ∧
    (∀ t ∈ trials, t.outcome.Succeeded) ∧ order.FoundBy tool w a
  scratch : left.scratch = w.scratch

/-- A build runs its commands as planned and none after one that failed, whose stage it reports; it
comes to an artifact only if all of them succeeded and the contract was found in what they left; and it
leaves no scratch directory. -/
theorem build_failFast (tool : Toolchain) (order : Order) (timeout : Option Binary64)
    (w : Workshop) :
    ∃ acts, ((build tool order timeout).run.run w).2 = w.replay acts ∧
      FailFast tool order w ((build tool order timeout).run.run w).1 (w.replay acts)
        (w.trials acts) := by
  obtain ⟨acts, hleft, -, hfollows⟩ := build_obeys tool order timeout w
  exact ⟨acts, hleft, {
    commands := Workshop.commands_replay acts
    planned := hfollows.arguments_isPrefix
    succeeded := fun _ _ ht hnext => hfollows.succeeded ht hnext
    failed := fun _ _ _ ht hp hfailed => hfollows.exists_fault ht hp hfailed
    built := fun _ ha => (ha ▸ hfollows).of_ok
    scratch := Workshop.scratch_replay acts }⟩

end

end Build

end Attest
