import Attest.Build.Builder

/-! # Replaying what a build does

All that work changes in a workshop is the sum of single acts. Replaying them gives the workshop that
the work leaves, and for each command the time at which it started. -/

namespace Attest.Build

open Tool

/-- What work does to a workshop at once. -/
inductive Act where
  | ran (c : Command)
  | called (call : List Document)
  | waited (span : Seconds)

/-- A command's run, from when to when. -/
structure Run where
  command : Command
  start : Seconds
  finish : Seconds
  deriving DecidableEq

namespace Workshop

variable (w : Workshop)

/-- The next answer of the program that a command calls. -/
def answer (c : Command) : Step :=
  ((if c.arguments.head? = some "git" then w.git else w.forge).head?).getD {}

/-- When a command that starts now comes to its end. -/
def finish (c : Command) : Seconds := w.clock.after ((w.answer c).perform c).1

def act : Act → Workshop
  | .ran c =>
      let isGit := c.arguments.head? = some "git"
      { w with
        git := if isGit then w.git.tail else w.git
        forge := if isGit then w.forge else w.forge.tail
        clock := w.finish c
        commands := w.commands ++ [c] }
  | .called call => { w with compilerCalls := w.compilerCalls ++ [.list call] }
  | .waited span => { w with clock := w.clock.after span }

def replay (acts : List Act) : Workshop := acts.foldl act w

/-- The commands among the acts, as they run when the acts are done one after the other. -/
def runs : Workshop → List Act → List Run
  | _, [] => []
  | w, .ran c :: acts => ⟨c, w.clock, w.finish c⟩ :: runs (w.act (.ran c)) acts
  | w, a :: acts => runs (w.act a) acts

variable {w}

theorem replay_append (xs ys : List Act) : w.replay (xs ++ ys) = (w.replay xs).replay ys :=
  List.foldl_append

theorem runs_append (xs ys : List Act) : w.runs (xs ++ ys) = w.runs xs ++ (w.replay xs).runs ys := by
  induction xs generalizing w with
  | nil => rfl
  | cons x xs ih =>
    cases x with
    | ran c => exact congrArg _ ih
    | called call => exact ih
    | waited span => exact ih

theorem act_scratch (a : Act) (n : Nat) :
    { w with scratch := n }.act a = { w.act a with scratch := n } := by
  cases a <;> rfl

/-- Acts do not depend on how many scratch directories there are, and leave them alone. -/
theorem replay_scratch (acts : List Act) (n : Nat) :
    { w with scratch := n }.replay acts = { w.replay acts with scratch := n } := by
  induction acts generalizing w with
  | nil => rfl
  | cons a acts ih =>
    rw [replay, List.foldl_cons, act_scratch]
    exact ih

theorem runs_scratch (acts : List Act) (n : Nat) :
    { w with scratch := n }.runs acts = w.runs acts := by
  induction acts generalizing w with
  | nil => rfl
  | cons a acts ih =>
    cases a with
    | ran c => exact congrArg (⟨c, w.clock, w.finish c⟩ :: ·) (ih (w := w.act (.ran c)))
    | called call => exact ih (w := w.act (.called call))
    | waited span => exact ih (w := w.act (.waited span))

theorem scratch_replay (acts : List Act) : (w.replay acts).scratch = w.scratch := by
  induction acts generalizing w with
  | nil => rfl
  | cons a acts ih =>
    rw [replay, List.foldl_cons]
    refine ih.trans ?_
    cases a <;> rfl

end Workshop

/-- Work that does nothing but what some acts do, with commands that have a property. -/
def Work.Does (x : Work α) (w : Workshop) (q : List Run → Prop) : Prop :=
  ∃ acts, (x.run.run w).2 = w.replay acts ∧ q (w.runs acts)

/-- A property of commands that they have one after the other if some and the rest of them have it. -/
structure Joins (q : List Run → Prop) : Prop where
  nil : q []
  append : ∀ {xs ys}, q xs → q ys → q (xs ++ ys)

namespace Work

variable {w : Workshop} {q : List Run → Prop}

theorem run_bind (x : Work α) (f : α → Work β) (w : Workshop) :
    (x >>= f).run.run w =
      match x.run.run w with
      | (.ok a, w') => (f a).run.run w'
      | (.error e, w') => (.error e, w') := by
  unfold ExceptT.run StateT.run
  simp only [bind, ExceptT.bind, ExceptT.mk, StateT.bind, ExceptT.bindCont]
  cases x w with
  | mk r w' => cases r <;> rfl

/-- Work with a scratch directory is the work where there is one more of them. -/
theorem run_withScratch (x : Work α) (w : Workshop) :
    (withScratch x).run.run w =
      ((x.run.run { w with scratch := w.scratch + 1 }).1,
        { (x.run.run { w with scratch := w.scratch + 1 }).2 with
          scratch := (x.run.run { w with scratch := w.scratch + 1 }).2.scratch - 1 }) :=
  rfl

theorem Does.of_eq {x : Work α} {r : Except Failure α} (hq : Joins q) (h : x.run.run w = (r, w)) :
    x.Does w q :=
  ⟨[], by rw [h]; rfl, hq.nil⟩

theorem Does.bind {x : Work α} {f : α → Work β} (hq : Joins q) (hx : x.Does w q)
    (hf : ∀ a w', x.run.run w = (.ok a, w') → (f a).Does w' q) : (x >>= f).Does w q := by
  obtain ⟨acts, hleft, hruns⟩ := hx
  unfold Does
  rw [run_bind]
  cases hr : x.run.run w with
  | mk r w' =>
    rw [hr] at hleft
    cases r with
    | error e => exact ⟨acts, hleft, hruns⟩
    | ok a =>
      obtain ⟨more, hmore, hrest⟩ := hf a w' hr
      subst hleft
      refine ⟨acts ++ more, ?_, ?_⟩
      · rw [Workshop.replay_append]
        exact hmore
      · rw [Workshop.runs_append]
        exact hq.append hruns hrest

theorem does_fail (hq : Joins q) (f : Fault) : (fail f : Work α).Does w q := .of_eq hq rfl

theorem does_throw (hq : Joins q) (f : Failure) : (throw f : Work α).Does w q := .of_eq hq rfl

theorem does_pure (hq : Joins q) (a : α) : (pure a : Work α).Does w q := .of_eq hq rfl

theorem does_ofExcept (hq : Joins q) (r : Except Failure α) : (ofExcept r).Does w q := .of_eq hq rfl

theorem does_get (hq : Joins q) : (get : Work Workshop).Does w q := .of_eq hq rfl

theorem does_callCompiler (hq : Joins q) (call : List Document) : (callCompiler call).Does w q :=
  ⟨[.called call], rfl, hq.nil⟩

theorem does_pass (hq : Joins q) (span : Seconds) : (pass span).Does w q :=
  ⟨[.waited span], rfl, hq.nil⟩

/-- A command of the one program is answered by that program. -/
theorem run_runGit {c : Command} (hc : c.arguments.head? = some "git") :
    (runGit c).run.run w = (.ok ((w.answer c).perform c).2, w.act (.ran c)) := by
  simp only [Workshop.answer, Workshop.act, Workshop.finish, if_pos hc]
  rfl

theorem run_runForge {c : Command} (hc : c.arguments.head? ≠ some "git") :
    (runForge c).run.run w = (.ok ((w.answer c).perform c).2, w.act (.ran c)) := by
  simp only [Workshop.answer, Workshop.act, Workshop.finish, if_neg hc]
  rfl

theorem Does.withScratch {x : Work α} (hx : x.Does { w with scratch := w.scratch + 1 } q) :
    (withScratch x).Does w q := by
  obtain ⟨acts, hleft, hruns⟩ := hx
  rw [Workshop.runs_scratch] at hruns
  refine ⟨acts, ?_, hruns⟩
  rw [run_withScratch, hleft, Workshop.replay_scratch]
  simp only [Nat.add_sub_cancel]
  rw [← Workshop.scratch_replay (w := w) acts]

end Work

/-! ### A compiler's own interface runs no command -/

namespace Solc

variable {w : Workshop} {q : List Run → Prop}

theorem install_does (hq : Joins q) (settings : Members) (file source : String) :
    (install settings file source).Does w q := by
  refine .bind hq (Work.does_get hq) fun _ w' _ => ?_
  dsimp only
  split
  · refine .bind hq (Work.does_callCompiler hq _) fun _ _ _ => ?_
    split
    · exact Work.does_fail hq _
    · exact Work.does_pure hq _
  · split
    · exact Work.does_fail hq _
    · refine .bind hq (Work.does_callCompiler hq _) fun _ _ _ => ?_
      split
      · exact Work.does_fail hq _
      · exact Work.does_pure hq _

theorem run_does (hq : Joins q) (input : Document) (directory : String) (version : Document) :
    (run input directory version).Does w q := by
  refine .bind hq (Work.does_get hq) fun _ _ _ => ?_
  refine .bind hq (Work.does_callCompiler hq _) fun _ _ _ => ?_
  refine .bind hq (Work.does_pass hq _) fun _ _ _ => ?_
  split
  · exact Work.does_fail hq _
  · exact Work.does_pure hq _

theorem compile_does (hq : Joins q) (t : Tree) (directory : String) (profile : Document)
    (targets : List Document) : (compile t directory profile targets).Does w q := by
  refine .bind hq (Work.does_ofExcept hq _) fun config? _ _ => ?_
  dsimp only
  split
  · exact .of_eq hq rfl
  refine .bind hq (Work.does_ofExcept hq _) fun profileSettings _ _ => ?_
  refine .bind hq (Work.does_ofExcept hq _) fun files _ _ => ?_
  cases files with
  | nil => exact Work.does_fail hq _
  | cons first rest =>
    refine .bind hq (install_does hq _ _ _) fun version _ _ => ?_
    refine .bind hq (Work.does_ofExcept hq _) fun settings _ _ => ?_
    exact .bind hq (run_does hq _ _ _) fun compiled _ _ => Work.does_ofExcept hq _

end Solc

end Attest.Build
