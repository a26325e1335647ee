import Attest.Proofs.BuildReplay
import Attest.Proofs.Rounding

/-! # The time that the commands of a build are given

A command gets no more than the time left when it starts. The update of submodules is the exception:
it gets what was left when the checkout before it started. -/

namespace Attest

/-! ### Limits from times -/

namespace Binary64

/-- A fraction becomes a number or is too great for one. -/
theorem ofRatio_cases (negative : Bool) (num den : Nat) :
    (∃ m e, ofRatio negative num den = finite negative m e) ∨
      ofRatio negative num den = infinite negative := by
  unfold ofRatio
  dsimp only
  split_ifs
  · exact .inl ⟨_, _, rfl⟩
  · exact .inr rfl
  · exact .inl ⟨_, _, rfl⟩
  · exact .inr rfl
  · exact .inl ⟨_, _, rfl⟩

theorem toRat?_ofRat_of_pos {q : Rat} (hq : 0 < q) :
    (ofRat q).toRat? = if 2 ^ (1024 : Int) ≤ rounded q then none else some (rounded q) := by
  have hnum : 0 < q.num := Rat.num_pos.mpr hq
  have hvalue : ((q.num.natAbs : Nat) : Rat) / q.den = q := by
    rw [Nat.cast_natAbs, abs_of_pos hnum, Rat.num_div_den]
  have hround := toRat?_ofRatio false (Int.natAbs_pos.mpr hnum.ne') q.den_pos
  rw [hvalue] at hround
  rw [ofRat, decide_eq_false hq.le.not_gt]
  exact hround

theorem ofRat_of_pos {q : Rat} (hq : 0 < q) :
    (ofRat q).toRat? = some (rounded q) ∨ ofRat q = infinite false ∧ 2 ^ (1024 : Int) ≤ rounded q := by
  have hround := toRat?_ofRat_of_pos hq
  split_ifs at hround with hgreat
  · rw [ofRat, decide_eq_false hq.le.not_gt] at hround ⊢
    obtain ⟨m, e, hfinite⟩ | hinfinite := ofRatio_cases false q.num.natAbs q.den
    · rw [hfinite] at hround
      cases hround
    · exact .inr ⟨hinfinite, hgreat⟩
  · exact .inl hround

end Binary64

namespace Seconds

open Binary64

/-- What a clock keeps, it keeps as it is. -/
theorem nearest_nearest (q : Seconds) : nearest (nearest q) = nearest q := by
  wlog hq : 0 < q generalizing q
  · obtain rfl | hneg := eq_or_lt_of_not_gt hq
    · rw [nearest_zero, nearest_zero]
    · have := this (-q) (neg_pos.mpr hneg)
      rwa [nearest_neg, nearest_neg, neg_inj] at this
  by_cases hgreat : 2 ^ (1024 : Int) ≤ rounded q
  · have hself : nearest q = q := by rw [nearest_of_pos hq, if_pos hgreat]
    rw [hself, hself]
  obtain hzero | hpos := (rounded_nonneg hq).eq_or_lt
  · rw [nearest_of_pos hq, if_neg hgreat, ← hzero, nearest_zero]
  · rw [nearest_of_pos hq, if_neg hgreat, nearest_of_pos hpos, rounded_rounded hq hpos,
      if_neg hgreat]

theorem nearest_since (now start : Seconds) : nearest (now.since start) = now.since start :=
  nearest_nearest _

end Seconds

namespace Limit

/-- A limit of so many seconds at most. -/
def AtMost (l : Limit) (most : Seconds) : Prop := ∃ s, l.seconds? = some s ∧ s ≤ most

theorem isLonger_whole {x : Binary64} {q : Rat} (h : x.toRat? = some q) (n : Int) :
    (span x).isLonger (whole n) = decide ((n : Rat) < q) := by
  cases x with
  | finite negative m e =>
    rw [isLonger, seconds?, seconds?, h]
    · simp
    · simp
    · simp
    · simp
  | infinite negative => cases h
  | undefined => cases h

/-- A time that a clock keeps, cut down to some whole seconds. -/
theorem shorter_atMost {left : Seconds} (hleft : Seconds.nearest left = left) (hpos : 0 < left)
    {n : Int} (hn : 0 < n) (hle : n ≤ 2 ^ 53) :
    ((span (.ofRat left)).shorter (whole n)).AtMost left := by
  have hgreater : (n : Rat) < 2 ^ (1024 : Int) :=
    lt_of_le_of_lt (by exact_mod_cast hle) (zpow_lt_zpow_right₀ one_lt_two (by decide : (53 : Int) < 1024))
  obtain hspan | ⟨hspan, hgreat⟩ := Binary64.ofRat_of_pos hpos
  · have hvalue : (Binary64.ofRat left).toRat? = some left := by
      rw [Seconds.nearest, hspan, Option.getD_some] at hleft
      rw [hspan, hleft]
    rw [shorter, isLonger_whole hvalue]
    split_ifs with hlonger
    · exact ⟨n, rfl, (of_decide_eq_true hlonger).le⟩
    · exact ⟨left, hvalue, le_rfl⟩
  · -- A time beyond all doubles is longer than any whole limit.
    rw [hspan]
    refine ⟨n, rfl, ?_⟩
    by_contra hlt
    have hround := Binary64.rounded_mono hpos (not_le.mp hlt).le
    have hself := Binary64.rounded_eq_self (e := 0) hn hle (by decide)
    rw [zpow_zero, mul_one] at hself
    rw [hself] at hround
    exact absurd (hgreat.trans hround) hgreater.not_ge

end Limit

namespace Seconds

/-- At this point of time the clock tells exactly what is left of a timeout. -/
structure TellsLeft (started timeout now : Seconds) : Prop where
  deadline : started.after timeout = started + timeout
  left : (started.after timeout).since now = timeout - (now - started)

/-- As it does when all times are a whole number of steps, within the reach of the steps. -/
theorem tellsLeft_of_steps {g : Nat} (hg : g ≤ 1074) {started timeout now : Seconds}
    (hstarted : Steps g started) (htimeout : Steps g timeout) (hnow : Steps g now)
    (hdeadline : |started + timeout| ≤ reach g) (hleft : |started + timeout - now| ≤ reach g) :
    TellsLeft started timeout now := by
  have hend : started.after timeout = started + timeout :=
    nearest_of_steps hg (hstarted.add htimeout) hdeadline
  refine ⟨hend, ?_⟩
  rw [hend, since, nearest_of_steps hg ((hstarted.add htimeout).sub hnow) hleft]
  ring

end Seconds

namespace Build

open Tool

/-- The arguments of the command that updates a checkout's submodules. -/
def Checkout.updateArguments : List String :=
  ["git", "submodule", "update", "--init", "--recursive", "--quiet"]

/-- A command that gets no more than the time left when it starts, and so ends in time. -/
structure Run.InTime (started timeout : Seconds) (r : Run) : Prop where
  limit : r.command.limit.AtMost ((started.after timeout).since r.start)
  finish : Seconds.TellsLeft started timeout r.start → r.finish ≤ started + timeout

/-- An update of submodules gets what the checkout before it got, and so may take longer than the time
left, by as long as the checkout took. -/
structure Run.UpdatesAfter (started timeout : Seconds) (checkout update : Run) : Prop where
  checkedOut : checkout.command.arguments.take 2 = ["git", "checkout"]
  updated : update.command.arguments = Checkout.updateArguments
  next : update.start = checkout.finish
  limit : update.command.limit = checkout.command.limit
  finish : Seconds.TellsLeft started timeout checkout.start →
    update.finish ≤ (started + timeout).after (checkout.finish - checkout.start)

/-- Commands that get no more than the time left, but for updates of submodules. -/
def Timely (started timeout : Seconds) (runs : List Run) : Prop :=
  ∀ r ∈ runs, r.InTime started timeout ∨
    ∃ checkout ∈ runs, checkout.InTime started timeout ∧ checkout.UpdatesAfter started timeout r

theorem Timely.joins (started timeout : Seconds) : Joins (Timely started timeout) where
  nil := by simp [Timely]
  append := by
    intro xs ys hxs hys r hr
    rcases List.mem_append.mp hr with hr | hr
    · refine (hxs r hr).imp_right ?_
      rintro ⟨checkout, hmem, h⟩
      exact ⟨checkout, List.mem_append_left ys hmem, h⟩
    · refine (hys r hr).imp_right ?_
      rintro ⟨checkout, hmem, h⟩
      exact ⟨checkout, List.mem_append_right xs hmem, h⟩

section

variable {T : Binary64} {timeout started left : Seconds} {w : Workshop}

/-- A command is stopped at its limit. -/
theorem Workshop.finish_le {c : Command} (h : c.limit.AtMost left) :
    w.finish c ≤ w.clock.after left := by
  obtain ⟨s, hs, hle⟩ := h
  refine Seconds.nearest_mono (add_le_add_right (le_trans ?_ hle) _)
  unfold Step.perform
  split_ifs with hexceeded
  · rw [hs, Option.getD_some]
  · have hwithin : c.limit.seconds?.any (fun s => decide (s < (w.answer c).delay)) = false := by
      unfold Limit.isExceededBy at hexceeded
      split at hexceeded
      · next hinfinite =>
        rw [hinfinite] at hs
        cases hs
      · simpa using hexceeded
    rw [hs] at hwithin
    simpa using hwithin

/-- What is left when a command starts is enough for it to end in time. -/
theorem Workshop.inTime {c : Command}
    (h : c.limit.AtMost ((started.after timeout).since w.clock)) :
    (⟨c, w.clock, w.finish c⟩ : Run).InTime started timeout where
  limit := h
  finish := by
    intro htells
    have hfinish := Workshop.finish_le (w := w) h
    rw [htells.left, Seconds.after] at hfinish
    have hend : w.clock + (timeout - (w.clock - started)) = started + timeout := by ring
    rw [hend] at hfinish
    exact hfinish.trans htells.deadline.le

theorem run_timeLeft (hT : T.toRat? = some timeout) (w : Workshop) :
    (timeLeft (some T) started).run.run w =
      if (started.after timeout).since w.clock ≤ 0 then (.error (.fault (.deadline T.text)), w)
      else (.ok (some (.span (.ofRat ((started.after timeout).since w.clock)))), w) := by
  cases T with
  | finite negative m e =>
    have hget : ((Binary64.finite negative m e).toRat?).getD 0 = timeout := by
      rw [hT, Option.getD_some]
    dsimp only [timeLeft]
    rw [Work.run_bind, show (get : Work Workshop).run.run w = (.ok w, w) from rfl]
    dsimp only
    rw [hget]
    split_ifs <;> rfl
  | infinite negative => cases hT
  | undefined => cases hT

/-- What work does with the time left, however much of it there is. -/
theorem timeLeft_does {q : List Run → Prop} (hq : Joins q) (hT : T.toRat? = some timeout)
    {f : Option Limit → Work α}
    (hf : ∀ left, left = (started.after timeout).since w.clock → 0 < left →
      (f (some (.span (.ofRat left)))).Does w q) :
    (timeLeft (some T) started >>= f).Does w q := by
  have hrun : (timeLeft (some T) started).run.run w = _ := run_timeLeft hT w
  by_cases hover : (started.after timeout).since w.clock ≤ 0
  · rw [if_pos hover] at hrun
    exact .of_eq hq (by rw [Work.run_bind, hrun])
  · rw [if_neg hover] at hrun
    refine .bind hq (.of_eq hq hrun) fun limit w' h => ?_
    rw [hrun] at h
    cases h
    exact hf _ rfl (not_le.mp hover)

theorem Checkout.run_run {c : Command} (hc : c.arguments.head? = some "git")
    (unavailable failed : String → Fault) (w : Workshop) :
    ∃ r, (run c unavailable failed).run.run w = (r, w.act (.ran c)) := by
  unfold run
  rw [Work.run_bind, Work.run_runGit hc]
  cases ((w.answer c).perform c).2 with
  | exited code stdout stderr =>
    dsimp only
    split_ifs
    · exact ⟨_, rfl⟩
    · exact ⟨_, rfl⟩
  | unavailable details => exact ⟨_, rfl⟩
  | broken d => exact ⟨_, rfl⟩

variable (hleft : left = (started.after timeout).since w.clock) (hpos : 0 < left)

include hleft hpos

theorem limit_atMost {n : Int} (hn : 0 < n) (hle : n ≤ 2 ^ 53) :
    ((Limit.span (.ofRat left)).shorter (.whole n)).AtMost ((started.after timeout).since w.clock) := by
  subst hleft
  exact Limit.shorter_atMost (Seconds.nearest_since _ _) hpos hn hle

theorem Checkout.clone_does (url directory : String) :
    (clone longest url directory (some (.span (.ofRat left)))).Does w (Timely started timeout) := by
  obtain ⟨r, hr⟩ := run_run (c := ⟨["git", "clone", "--quiet", url, directory],
    limitFor longest (some (.span (.ofRat left))), none, none⟩) rfl (.clone url) (.clone url) w
  refine ⟨[.ran _], congrArg Prod.snd hr, ?_⟩
  intro r' hr'
  rw [List.mem_singleton.mp hr']
  exact .inl (Workshop.inTime (limit_atMost hleft hpos (by decide) (by decide)))

theorem Checkout.checkout_does (directory commit : String) :
    (checkout longest directory commit (some (.span (.ofRat left)))).Does w
      (Timely started timeout) := by
  have hlimit := limit_atMost hleft hpos (n := 600) (by decide) (by decide)
  let first : Command := ⟨["git", "checkout", "--quiet", commit],
    limitFor longest (some (.span (.ofRat left))), some directory, none⟩
  let second : Command := ⟨updateArguments, first.limit, some directory, none⟩
  have hfirst : (⟨first, w.clock, w.finish first⟩ : Run).InTime started timeout :=
    Workshop.inTime hlimit
  obtain ⟨r, hr⟩ := run_run (c := first) rfl (.checkout commit) (.unknownCommit commit) w
  unfold Work.Does checkout
  rw [Work.run_bind, hr]
  cases r with
  | error e =>
    refine ⟨[.ran first], rfl, ?_⟩
    intro run hrun
    rw [List.mem_singleton.mp hrun]
    exact .inl hfirst
  | ok a =>
    obtain ⟨r', hr'⟩ := run_run (c := second) rfl .submodules .submodules (w.act (.ran first))
    refine ⟨[.ran first, .ran second], congrArg Prod.snd hr', ?_⟩
    intro run hrun
    rcases List.mem_cons.mp hrun with rfl | hrun
    · exact .inl hfirst
    rw [List.mem_singleton.mp hrun]
    refine .inr ⟨_, List.mem_cons_self, hfirst, rfl, rfl, rfl, rfl, fun htells => ?_⟩
    -- The limit is what was left at the start of the checkout, and counts from its end.
    have hfinish := Workshop.finish_le (w := w.act (.ran first)) (c := second) hlimit
    have hstart : Seconds.TellsLeft started timeout w.clock := htells
    rw [hstart.left] at hfinish
    refine hfinish.trans (le_of_eq (congrArg Seconds.nearest ?_))
    show w.finish first + (timeout - (w.clock - started)) =
      started + timeout + (w.finish first - w.clock)
    ring

theorem Forge.compile_does (t : Tree) (directory : String) (profile : Document) :
    (Forge.compile longest t directory profile (some (.span (.ofRat left)))).Does w
      (Timely started timeout) := by
  have hjoins := Timely.joins started timeout
  refine .bind hjoins (Work.does_ofExcept hjoins _) fun config? w' h => ?_
  obtain rfl : w' = w := (congrArg Prod.snd h).symm
  cases config? with
  | none => exact Work.does_fail hjoins _
  | some config =>
    refine .bind hjoins (Work.does_ofExcept hjoins _) fun settings w h => ?_
    obtain rfl : w' = w := congrArg Prod.snd h
    refine .bind hjoins ?_ fun outcome w _ => ?_
    · have hlimit := limit_atMost hleft hpos (n := 1800) (by decide) (by decide)
      refine ⟨[.ran _], congrArg Prod.snd (Work.run_runForge (by simp)), ?_⟩
      intro run hrun
      rw [List.mem_singleton.mp hrun]
      exact .inl (Workshop.inTime hlimit)
    · cases outcome with
      | unavailable details => exact Work.does_fail hjoins _
      | broken d => exact Work.does_throw hjoins _
      | exited code stdout stderr =>
        dsimp only
        split_ifs
        · exact Work.does_fail hjoins _
        · exact Work.does_ofExcept hjoins _

end

section

variable {T : Binary64} {timeout : Seconds}

theorem buildIn_does (hT : T.toRat? = some timeout) (tool : Toolchain) (order : Order)
    (started : Seconds) (w : Workshop) :
    (buildIn tool order (some T) started).Does w (Timely started timeout) := by
  have hjoins := Timely.joins started timeout
  refine timeLeft_does hjoins hT fun left hleft hpos => ?_
  refine .bind hjoins (Checkout.clone_does hleft hpos _ _) fun _ w _ => ?_
  refine timeLeft_does hjoins hT fun left hleft hpos => ?_
  refine .bind hjoins (Checkout.checkout_does hleft hpos _ _) fun _ w _ => ?_
  refine .bind hjoins (Work.does_ofExcept hjoins _) fun target w _ => ?_
  refine timeLeft_does hjoins hT fun left hleft hpos => ?_
  refine .bind hjoins (Work.does_get hjoins) fun here w' h => ?_
  obtain ⟨rfl, rfl⟩ : here = w ∧ w' = w := by
    cases h
    exact ⟨rfl, rfl⟩
  refine .bind hjoins ?_ fun output w _ => .bind hjoins (Work.does_ofExcept hjoins _) fun entry w _ => ?_
  · cases tool with
    | forge => exact Forge.compile_does hleft hpos _ _ _
    | solc => exact Solc.compile_does hjoins _ _ _ _
  · split
    · exact Work.does_fail hjoins _
    · exact Work.does_ofExcept hjoins _

/-- All that a build does is what some acts do, and its commands are timely: each gets at most what is
left of the timeout when it starts, but for an update of submodules, which gets what was left when the
checkout before it started. -/
theorem build_timely (hT : T.toRat? = some timeout) (tool : Toolchain) (order : Order)
    (w : Workshop) :
    ∃ acts, ((build tool order (some T)).run.run w).2 = w.replay acts ∧
      Timely w.clock timeout (w.runs acts) := by
  have hjoins := Timely.joins w.clock timeout
  refine Work.Does.bind hjoins (Work.does_get hjoins) fun here w' h => ?_
  obtain ⟨rfl, rfl⟩ : here = w ∧ w' = w := by
    cases h
    exact ⟨rfl, rfl⟩
  exact (buildIn_does hT tool order _ _).withScratch

end

/-- A build of a repository whose checkout and whose submodules take their time. -/
def Workshop.slowCheckout : Workshop := { git := [{}, { delay := 90 }, { delay := 100 }] }

def Order.sample : Order := 
  ⟨.text "https://example.org/a.git", "main", .contract ⟨"src/A.sol", "A"⟩, .text "default"⟩

theorem build_timely_slowCheckout :
    (Binary64.ofRat 100).toRat? = some 100 ∧
      ∃ acts, ((build .forge .sample (some (.ofRat 100))).run.run .slowCheckout).2 =
          Workshop.slowCheckout.replay acts ∧
        Timely 0 100 (Workshop.slowCheckout.runs acts) :=
  have h : (Binary64.ofRat 100).toRat? = some 100 := by decide +kernel
  ⟨h, build_timely h .forge .sample .slowCheckout⟩

/-- With 10 of 100 seconds left, the update of submodules is given 100 and takes them. -/
theorem update_outlives_timeout :
    ∃ commands r,
      ((build .forge .sample (some (.ofRat 100))).run.run .slowCheckout).2.commands = commands ∧
      r ∈ Workshop.slowCheckout.runs (commands.map .ran) ∧
      r.command.arguments = Checkout.updateArguments ∧ r.start = 90 ∧
      Seconds.TellsLeft 0 100 r.start ∧ r.command.limit.seconds? = some 100 ∧ r.finish = 190 := by
  let limit := Limit.span (.ofRat 100)
  let first : Command := ⟨["git", "clone", "--quiet", "https://example.org/a.git", cloneDirectory],
    limit, none, none⟩
  let second : Command := ⟨["git", "checkout", "--quiet", "main"], limit, some cloneDirectory, none⟩
  let third : Command := ⟨Checkout.updateArguments, limit, some cloneDirectory, none⟩
  refine ⟨[first, second, third], ⟨third, 90, 190⟩, by decide +kernel,
    by decide +kernel, rfl, rfl, ⟨by decide +kernel, by decide +kernel⟩, by decide +kernel, rfl⟩

end Build

end Attest
