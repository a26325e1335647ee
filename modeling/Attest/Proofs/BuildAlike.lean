import Attest.Proofs.BuildReplay

/-! # Builds that differ in time only

In workshops where the same programs give the same answers, sooner or later, two builds that both
succeed come to the same artifact. A limit shows only in builds that fail. -/

namespace Attest

namespace Tool

/-- A step, no matter how long it takes. -/
def Step.untimed (s : Step) : Step := { s with delay := 0 }

/-- Outcomes that are the same, unless a program was not available. -/
inductive Outcome.Agrees : Outcome → Outcome → Prop
  | same (o : Outcome) : Agrees o o
  | left (details : String) (o : Outcome) : Agrees (.unavailable details) o
  | right (o : Outcome) (details : String) : Agrees o (.unavailable details)

/-- A step comes to the same under all limits, unless it takes longer than one of them. -/
theorem Step.perform_agrees {s s' : Step} (h : s.untimed = s'.untimed) (c c' : Command) :
    (s.perform c).2.Agrees (s'.perform c').2 := by
  obtain ⟨exit, stdout, stderr, delay, mishap, files⟩ := s
  obtain ⟨exit', stdout', stderr', delay', mishap', files'⟩ := s'
  cases h
  unfold perform
  by_cases hexceeded : c.limit.isExceededBy delay = true
  · rw [if_pos hexceeded]
    exact .left _ _
  · by_cases hexceeded' : c'.limit.isExceededBy delay' = true
    · rw [if_pos hexceeded']
      exact .right _ _
    · rw [if_neg hexceeded, if_neg hexceeded']
      exact .same _

end Tool

namespace Build

open Tool

/-- Workshops that differ in time only: their programs give the same answers, sooner or later. -/
structure Workshop.Alike (w w' : Workshop) : Prop where
  git : w.git.map Step.untimed = w'.git.map Step.untimed
  forge : w.forge.map Step.untimed = w'.forge.map Step.untimed
  compiler : { w.compiler with delay := 0 } = { w'.compiler with delay := 0 }
  repository : w.repository = w'.repository

theorem Workshop.Alike.compiler_eq {w w' : Workshop} (h : w.Alike w') :
    ∃ (compiler : Compiler) (delay delay' : Seconds),
      w.compiler = { compiler with delay } ∧ w'.compiler = { compiler with delay := delay' } :=
  ⟨w.compiler, w.compiler.delay, w'.compiler.delay, rfl,
    congrArg (fun c => { c with delay := w'.compiler.delay }) h.compiler.symm⟩

theorem untimed_head {l l' : List Step} (h : l.map Step.untimed = l'.map Step.untimed) :
    (l.head?.getD {}).untimed = (l'.head?.getD {}).untimed := by
  cases l with
  | nil =>
    rw [List.map_eq_nil_iff.mp h.symm]
  | cons s l =>
    cases l' with
    | nil => cases h
    | cons s' l' => exact (List.cons.inj h).1

theorem untimed_tail {l l' : List Step} (h : l.map Step.untimed = l'.map Step.untimed) :
    l.tail.map Step.untimed = l'.tail.map Step.untimed := by
  rw [List.map_tail, List.map_tail, h]

namespace Work

/-- Where two works both succeed in workshops that are alike, their results are related and they leave
workshops that are alike. -/
def Agree (R : α → β → Prop) (x : Work α) (y : Work β) : Prop :=
  ∀ w w' a b v v', w.Alike w' → x.run.run w = (.ok a, v) → y.run.run w' = (.ok b, v') →
    R a b ∧ v.Alike v'

variable {R : α → β → Prop} {S : γ → δ → Prop}

theorem Agree.bind {x : Work α} {y : Work β} {f : α → Work γ} {g : β → Work δ} (h : Agree R x y)
    (hf : ∀ a b, R a b → Agree S (f a) (g b)) : Agree S (x >>= f) (y >>= g) := by
  intro w w' c d v v' hw hx hy
  rw [run_bind] at hx hy
  cases hleft : x.run.run w with
  | mk r u =>
    cases hright : y.run.run w' with
    | mk r' u' =>
      rw [hleft] at hx
      rw [hright] at hy
      cases r with
      | error e => cases hx
      | ok a =>
        cases r' with
        | error e => cases hy
        | ok b =>
          obtain ⟨hR, hu⟩ := h w w' a b u u' hw hleft hright
          exact hf a b hR u u' c d v v' hu hx hy

/-- Where both come to the same, what follows need only agree on it. -/
theorem Agree.bind_eq {x y : Work α} {f : α → Work γ} {g : α → Work δ} (h : Agree Eq x y)
    (hf : ∀ a, Agree S (f a) (g a)) : Agree S (x >>= f) (y >>= g) := by
  refine h.bind fun a b hab => ?_
  subst hab
  exact hf a

/-- Work that leaves the workshop as it is. -/
def Still (x : Work α) : Prop := ∀ w, ∃ r, x.run.run w = (r, w)

/-- What two such works come to need not be related. -/
theorem agree_of_still {x : Work α} {y : Work β} (hx : Still x) (hy : Still y) :
    Agree (fun _ _ => True) x y := by
  intro w w' a b v v' hw hleft hright
  obtain ⟨r, hr⟩ := hx w
  obtain ⟨r', hr'⟩ := hy w'
  obtain ⟨-, rfl⟩ := Prod.mk.inj (hr.symm.trans hleft)
  obtain ⟨-, rfl⟩ := Prod.mk.inj (hr'.symm.trans hright)
  exact ⟨trivial, hw⟩

theorem agree_fail (f : Fault) (y : Work β) : Agree R (fail f) y := by
  intro w w' a b v v' _ h _
  cases h

theorem fail_agree (x : Work α) (f : Fault) : Agree R x (fail f) := by
  intro w w' a b v v' _ _ h
  cases h

theorem agree_throw (f : Failure) (y : Work β) : Agree R (throw f) y := by
  intro w w' a b v v' _ h _
  cases h

theorem agree_ofExcept (r : Except Failure α) : Agree Eq (ofExcept r) (ofExcept r) := by
  intro w w' a b v v' hw hx hy
  cases hx
  cases hy
  exact ⟨rfl, hw⟩

theorem agree_pure {a : α} {b : β} (h : R a b) : Agree R (pure a) (pure b) := by
  intro w w' a b v v' hw hx hy
  cases hx
  cases hy
  exact ⟨h, hw⟩

theorem agree_get : Agree Workshop.Alike (get : Work Workshop) get := by
  intro w w' a b v v' hw hx hy
  cases hx
  cases hy
  exact ⟨hw, hw⟩

theorem agree_callCompiler (call call' : List Document) :
    Agree Eq (callCompiler call) (callCompiler call') := by
  intro w w' a b v v' hw hx hy
  cases hx
  cases hy
  exact ⟨rfl, hw.git, hw.forge, hw.compiler, hw.repository⟩

theorem agree_pass (span span' : Seconds) : Agree Eq (pass span) (pass span') := by
  intro w w' a b v v' hw hx hy
  cases hx
  cases hy
  exact ⟨rfl, hw.git, hw.forge, hw.compiler, hw.repository⟩

theorem agree_runGit (c c' : Command) : Agree Outcome.Agrees (runGit c) (runGit c') := by
  intro w w' a b v v' hw hx hy
  cases hx
  cases hy
  exact ⟨Step.perform_agrees (untimed_head hw.git) c c', untimed_tail hw.git, hw.forge, hw.compiler,
    hw.repository⟩

theorem agree_runForge (c c' : Command) : Agree Outcome.Agrees (runForge c) (runForge c') := by
  intro w w' a b v v' hw hx hy
  cases hx
  cases hy
  exact ⟨Step.perform_agrees (untimed_head hw.forge) c c', hw.git, untimed_tail hw.forge, hw.compiler,
    hw.repository⟩

theorem Agree.withScratch {x : Work α} {y : Work β} (h : Agree R x y) :
    Agree R (withScratch x) (withScratch y) := by
  intro w w' a b v v' hw hx hy
  have hentered : Workshop.Alike { w with scratch := w.scratch + 1 }
      { w' with scratch := w'.scratch + 1 } := ⟨hw.git, hw.forge, hw.compiler, hw.repository⟩
  rw [run_withScratch] at hx hy
  obtain ⟨ha, rfl⟩ := Prod.mk.inj hx
  obtain ⟨hb, rfl⟩ := Prod.mk.inj hy
  obtain ⟨hR, hleft⟩ := h _ _ a b _ _ hentered (Prod.ext ha rfl) (Prod.ext hb rfl)
  exact ⟨hR, hleft.git, hleft.forge, hleft.compiler, hleft.repository⟩

end Work

/-! ### Builds -/

open Work

theorem timeLeft_still (timeout : Option Binary64) (started : Seconds) :
    Still (timeLeft timeout started) := by
  intro w
  cases timeout with
  | none => exact ⟨_, rfl⟩
  | some t =>
    cases t with
    | finite negative m e =>
      dsimp only [timeLeft]
      rw [run_bind, show (get : Work Workshop).run.run w = (.ok w, w) from rfl]
      dsimp only
      split <;> exact ⟨_, rfl⟩
    | infinite negative => cases negative <;> exact ⟨_, rfl⟩
    | undefined => exact ⟨_, rfl⟩

/-- How much time is left is another matter in each workshop. -/
theorem timeLeft_agree (timeout : Option Binary64) (started started' : Seconds) :
    Agree (fun _ _ => True) (timeLeft timeout started) (timeLeft timeout started') :=
  agree_of_still (timeLeft_still _ _) (timeLeft_still _ _)

namespace Checkout

theorem run_agree (c c' : Command) (unavailable failed : String → Fault) :
    Agree Eq (run c unavailable failed) (run c' unavailable failed) := by
  refine (agree_runGit c c').bind fun o o' h => ?_
  cases h with
  | left details o => exact agree_fail _ _
  | right o details => exact fail_agree _ _
  | same o =>
    cases o with
    | unavailable details => exact agree_fail _ _
    | broken d => exact agree_throw _ _
    | exited code stdout stderr =>
      dsimp only
      split
      · exact agree_fail _ _
      · exact agree_pure rfl

theorem clone_agree (url directory : String) (limit limit' : Option Limit) :
    Agree Eq (clone longest url directory limit) (clone longest url directory limit') :=
  run_agree _ _ _ _

theorem checkout_agree (directory commit : String) (limit limit' : Option Limit) :
    Agree Eq (checkout longest directory commit limit)
      (checkout longest directory commit limit') :=
  (run_agree _ _ _ _).bind_eq fun _ => run_agree _ _ _ _

end Checkout

theorem Forge.compile_agree (t : Tree) (directory : String) (profile : Document)
    (limit limit' : Option Limit) :
    Agree Eq (Forge.compile longest t directory profile limit)
      (Forge.compile longest t directory profile limit') := by
  refine (agree_ofExcept _).bind_eq fun config? => ?_
  cases config? with
  | none => exact agree_fail _ _
  | some config =>
    refine (agree_ofExcept _).bind_eq fun settings => ?_
    refine (agree_runForge _ _).bind fun o o' h => ?_
    cases h with
    | left details o => exact agree_fail _ _
    | right o details => exact fail_agree _ _
    | same o =>
      cases o with
      | unavailable details => exact agree_fail _ _
      | broken d => exact agree_throw _ _
      | exited code stdout stderr =>
        dsimp only
        split
        · exact agree_fail _ _
        · exact agree_ofExcept _

namespace Solc

theorem install_agree (settings : Members) (file source : String) :
    Agree Eq (install settings file source) (install settings file source) := by
  refine agree_get.bind fun w w' hw => ?_
  obtain ⟨compiler, delay, delay', hcompiler, hcompiler'⟩ := hw.compiler_eq
  dsimp only
  rw [hcompiler, hcompiler']
  dsimp only
  split
  · refine (agree_callCompiler _ _).bind_eq fun _ => ?_
    split
    · exact agree_fail _ _
    · exact agree_pure rfl
  · split
    · exact agree_fail _ _
    · refine (agree_callCompiler _ _).bind_eq fun _ => ?_
      split
      · exact agree_fail _ _
      · exact agree_pure rfl

theorem run_agree (input : Document) (directory : String) (version : Document) :
    Agree Eq (run input directory version) (run input directory version) := by
  refine agree_get.bind fun w w' hw => ?_
  obtain ⟨compiler, delay, delay', hcompiler, hcompiler'⟩ := hw.compiler_eq
  dsimp only
  rw [hcompiler, hcompiler']
  refine (agree_callCompiler _ _).bind_eq fun _ => ?_
  refine (agree_pass _ _).bind_eq fun _ => ?_
  dsimp only
  split
  · exact agree_fail _ _
  · exact agree_pure rfl

theorem compile_agree (t : Tree) (directory : String) (profile : Document)
    (targets : List Document) :
    Agree Eq (compile t directory profile targets) (compile t directory profile targets) := by
  refine (agree_ofExcept _).bind_eq fun config? => ?_
  dsimp only
  split
  · exact agree_fail _ _
  refine (agree_ofExcept _).bind_eq fun profileSettings => ?_
  refine (agree_ofExcept _).bind_eq fun files => ?_
  cases files with
  | nil => exact agree_fail _ _
  | cons first rest =>
    refine (install_agree _ _ _).bind_eq fun version => ?_
    refine (agree_ofExcept _).bind_eq fun settings => ?_
    refine (run_agree _ _ _).bind_eq fun compiled => ?_
    exact agree_ofExcept _

end Solc

theorem buildIn_agree (tool : Toolchain) (order : Order) (timeout : Option Binary64)
    (started started' : Seconds) :
    Agree Eq (buildIn tool order timeout started) (buildIn tool order timeout started') := by
  -- the limits may differ from here on; only a command that is cut off could tell them
  refine (timeLeft_agree _ _ _).bind fun limit limit' _ => ?_
  refine (Checkout.clone_agree _ _ _ _).bind_eq fun _ => ?_
  refine (timeLeft_agree _ _ _).bind fun limit limit' _ => ?_
  refine (Checkout.checkout_agree _ _ _ _).bind_eq fun _ => ?_
  refine (agree_ofExcept _).bind_eq fun target => ?_
  refine (timeLeft_agree _ _ _).bind fun limit limit' _ => ?_
  refine agree_get.bind fun w w' hw => ?_
  have hcompile : Agree Eq
      (tool.compile w.repository cloneDirectory order.profile [target] limit)
      (tool.compile w'.repository cloneDirectory order.profile [target] limit') := by
    rw [hw.repository]
    cases tool with
    | forge => exact Forge.compile_agree _ _ _ _ _
    | solc => exact Solc.compile_agree _ _ _ _
  refine hcompile.bind_eq fun output => ?_
  refine (agree_ofExcept _).bind_eq fun entry => ?_
  split
  · exact agree_fail _ _
  · exact agree_ofExcept _

/-- Builds that both succeed in workshops that are alike come to the same artifact. -/
theorem build_agree (tool : Toolchain) (order : Order) (timeout : Option Binary64) :
    Agree Eq (build tool order timeout) (build tool order timeout) :=
  agree_get.bind fun _ _ _ => (buildIn_agree _ _ _ _ _).withScratch

end Build

end Attest
